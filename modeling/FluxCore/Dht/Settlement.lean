import FluxCore.Dht.Messaging
import Mathlib.Data.List.Perm.Basic

/-!
# Every DHT query is settled once

The callback of a query is in the queue, in the tracker or has been called, exactly one of these:
`Kept` is kept by every event, however sending and decoding go. `settled_once` adds that a datagram
settles only a tracked query with its transaction id that was sent to where it comes from.
-/

namespace FluxCore.Dht.Messaging

open Utp (Bytes)
open Bencode (ValueBase Dict name)

variable {R Q : Type} {F : Factory R Q} {c c' : Messaging} {now k : Nat}
  {queue : List DHTMessageEntry}

/-- The callbacks of the entries of a queue. -/
def queued (queue : List DHTMessageEntry) : List Nat := queue.filterMap (·.callback)

def tracked (entries : List DHTMessageTrackerEntry) : List Nat := entries.filterMap (·.callback)

def called (c : Messaging) : List Nat := c.settled.map Prod.fst

/-- What every event keeps; `queue` is what is left of the queue while it is being sent. -/
structure Kept (c : Messaging) (queue : List DHTMessageEntry) : Prop where
  places : ∀ k m, c.callbacks[k]? = some m → m.isReply = false →
    (queued queue).count k + (tracked c.entries).count k + c.called.count k = 1
  queued : ∀ e ∈ queue, ∀ k, e.callback = some k → c.callbacks[k]? = some e.message
  tracked : ∀ e ∈ c.entries, ∀ k, e.callback = some k → ∃ m, c.callbacks[k]? = some m ∧
    m.isReply = false ∧ e.transactionID = m.transactionID ∧ e.targetNode = m.remoteNode
  called : ∀ k ∈ c.called, k < c.callbacks.length

/-! ## Adding -/

theorem kept_addMessageToQueue (h : Kept c c.messageQueue) (message : DHTMessage) (timeout : Nat)
    (withCallback : Bool) :
    Kept (c.addMessageToQueue message timeout withCallback)
      (c.addMessageToQueue message timeout withCallback).messageQueue := by
  unfold addMessageToQueue
  split
  next =>
    have hold : ∀ k m, c.callbacks[k]? = some m → (c.callbacks ++ [message])[k]? = some m :=
      fun k m hk => by
        rwa [List.getElem?_append_left (List.getElem?_eq_some_iff.mp hk).1]
    have hlt : ∀ {k m}, c.callbacks[k]? = some m → k < c.callbacks.length := fun hk =>
      (List.getElem?_eq_some_iff.mp hk).1
    refine ⟨fun k m hk hq => ?_, fun e he k hk => ?_, fun e he k hk => ?_, fun k hk => ?_⟩
    · have hcount : (Messaging.queued (c.messageQueue ++
          [⟨message, timeout, some c.callbacks.length⟩])).count k =
          (Messaging.queued c.messageQueue).count k + if c.callbacks.length = k then 1 else 0 := by
        simp [Messaging.queued, List.filterMap_append, List.count_append, List.count_singleton]
      dsimp only [Messaging.called] at hk ⊢
      rw [hcount]
      rcases Nat.lt_trichotomy k c.callbacks.length with hk' | rfl | hk'
      · rw [if_neg (by omega)]
        rw [List.getElem?_append_left hk'] at hk
        exact h.places k m hk hq
      · have h1 : (Messaging.queued c.messageQueue).count c.callbacks.length = 0 := by
          refine List.count_eq_zero_of_not_mem fun hm => ?_
          obtain ⟨e, he, hek⟩ := List.mem_filterMap.mp hm
          exact (hlt (h.queued e he _ hek)).false
        have h2 : (Messaging.tracked c.entries).count c.callbacks.length = 0 := by
          refine List.count_eq_zero_of_not_mem fun hm => ?_
          obtain ⟨e, he, hek⟩ := List.mem_filterMap.mp hm
          obtain ⟨m, hm, -⟩ := h.tracked e he _ hek
          exact (hlt hm).false
        have h3 : (c.settled.map Prod.fst).count c.callbacks.length = 0 :=
          List.count_eq_zero_of_not_mem fun hm => (h.called _ hm).false
        rw [h1, h2, h3, if_pos rfl]
      · rw [List.getElem?_eq_none (by simp; omega)] at hk
        cases hk
    · rcases List.mem_append.mp he with he | he
      · exact hold _ _ (h.queued e he k hk)
      · rw [List.mem_singleton] at he
        subst he
        rw [← Option.some.inj hk]
        exact List.getElem?_concat_length
    · obtain ⟨m, hm, hrest⟩ := h.tracked e he k hk
      exact ⟨m, hold _ _ hm, hrest⟩
    · rw [List.length_append]
      exact (h.called k hk).trans (Nat.lt_succ_self _)
  next =>
    have hcount : Messaging.queued (c.messageQueue ++ [⟨message, timeout, none⟩]) =
        Messaging.queued c.messageQueue := by
      simp [Messaging.queued, List.filterMap_append]
    refine ⟨fun k m hk hq => ?_, fun e he k hk => ?_, h.tracked, h.called⟩
    · rw [hcount]
      exact h.places k m hk hq
    · rcases List.mem_append.mp he with he | he
      · exact h.queued e he k hk
      · rw [List.mem_singleton] at he
        subst he
        cases hk

/-! ## Sending -/

/-- Queue and tracker do not depend on the rest. -/
theorem Kept.congr (h : Kept c queue) (he : c'.entries = c.entries)
    (hc : c'.callbacks = c.callbacks) (hs : c'.settled = c.settled) : Kept c' queue := by
  refine ⟨fun k m => ?_, fun e hq k hk => ?_, fun e hm k hk => ?_, fun k hk => ?_⟩
  · rw [hc, he, Messaging.called, hs]
    exact h.places k m
  · rw [hc]
    exact h.queued e hq k hk
  · rw [hc]
    exact h.tracked e (he ▸ hm) k hk
  · rw [hc]
    rw [Messaging.called, hs] at hk
    exact h.called k hk

theorem count_queued_cons (e : DHTMessageEntry) (queue : List DHTMessageEntry) (k : Nat) :
    (queued (e :: queue)).count k =
      (e.callback.toList).count k + (queued queue).count k := by
  cases h : e.callback <;> simp [queued, h, List.count_cons, Nat.add_comm]

/-- The first entry is dropped: it is a reply. -/
theorem Kept.drop {e : DHTMessageEntry} (h : Kept c (e :: queue)) (hr : e.message.isReply = true) :
    Kept c queue := by
  refine ⟨fun k m hk hq => ?_, fun e' he => h.queued e' (.tail _ he), h.tracked, h.called⟩
  have hp := h.places k m hk hq
  rw [count_queued_cons] at hp
  have hzero : e.callback.toList.count k = 0 := by
    refine List.count_eq_zero_of_not_mem fun hm => ?_
    have := h.queued e (.head _) k (Option.mem_toList.mp hm)
    rw [hk] at this
    rw [Option.some.inj this, hr] at hq
    cases hq
  omega

/-- The first entry is a query and goes to the tracker. -/
theorem Kept.track {e : DHTMessageEntry} (h : Kept c (e :: queue)) (hr : e.message.isReply = false)
    (now timeout : Nat) : Kept (c.addMessage e.message now timeout e.callback) queue := by
  refine ⟨fun k m hk hq => ?_, fun e' he => h.queued e' (.tail _ he), fun t ht k hk => ?_, h.called⟩
  · have hp := h.places k m hk hq
    rw [count_queued_cons] at hp
    have hcount : (Messaging.tracked (c.addMessage e.message now timeout e.callback).entries).count k =
        (Messaging.tracked c.entries).count k + e.callback.toList.count k := by
      rw [addMessage, Messaging.tracked, List.filterMap_append, List.count_append]
      cases e.callback <;> rfl
    have hcalled : (c.addMessage e.message now timeout e.callback).called = c.called := rfl
    rw [hcount, hcalled]
    omega
  · rcases List.mem_append.mp ht with ht | ht
    · exact h.tracked t ht k hk
    · rw [List.mem_singleton] at ht
      subst ht
      exact ⟨e.message, h.queued e (.head _) k hk, hr, rfl, rfl⟩

theorem kept_sendLoop (results : Nat → SendResult) {n : Nat} (h : Kept c queue) :
    Kept (sendLoop now results n queue c) (sendLoop now results n queue c).messageQueue := by
  induction queue generalizing c n with
  | nil => exact h.congr rfl rfl rfl
  | cons e queue ih =>
    rw [sendLoop]
    cases results n with
    | wouldBlock => exact h.congr rfl rfl rfl
    | sent =>
      dsimp only [sendMessage]
      split
      next hr => exact ih ((h.drop hr).congr rfl rfl rfl)
      next hr => exact ih ((h.track (Bool.eq_false_iff.mpr hr) now e.timeout).congr rfl rfl rfl)
    | thrown =>
      dsimp only [sendMessage]
      split
      next hr => exact ih (h.drop hr)
      next hr => exact ih (h.track (Bool.eq_false_iff.mpr hr) now 0)

/-! ## Settling -/

/-- Entries leave the tracker, and their callbacks are called. -/
theorem Kept.settle {entries' : List DHTMessageTrackerEntry} (h : Kept c queue)
    (entries : List DHTMessageTrackerEntry) (how : Settlement)
    (hp : c.entries.Perm (entries ++ entries')) (he : c'.entries = entries')
    (hc : c'.callbacks = c.callbacks)
    (hs : c'.settled = c.settled ++ (Messaging.tracked entries).map fun k => (k, how)) :
    Kept c' queue := by
  have hcalled : c'.called = c.called ++ Messaging.tracked entries := by
    rw [Messaging.called, hs, List.map_append, List.map_map]
    exact congrArg _ (List.map_id _)
  refine ⟨fun k m hk hq => ?_, fun e hm k hk => ?_, fun e hm k hk => ?_, fun k hk => ?_⟩
  · have hcount : (Messaging.tracked c.entries).count k =
        (Messaging.tracked entries).count k + (Messaging.tracked entries').count k := by
      rw [← List.count_append, Messaging.tracked, Messaging.tracked, Messaging.tracked,
        ← List.filterMap_append]
      exact (hp.filterMap _).count_eq k
    have := h.places k m (hc ▸ hk) hq
    rw [hcalled, he, List.count_append]
    omega
  · rw [hc]
    exact h.queued e hm k hk
  · rw [hc]
    exact h.tracked e (hp.symm.subset (List.mem_append_right _ (he ▸ hm))) k hk
  · rw [hc]
    rw [hcalled] at hk
    rcases List.mem_append.mp hk with hk | hk
    · exact h.called k hk
    · obtain ⟨e, hm, hek⟩ := List.mem_filterMap.mp hk
      obtain ⟨m, hm, -⟩ := h.tracked e (hp.symm.subset (List.mem_append_left _ hm)) k hek
      exact (List.getElem?_eq_some_iff.mp hm).1

theorem foldl_handleTimeoutEntry (entries : List DHTMessageTrackerEntry) (c : Messaging) :
    entries.foldl handleTimeoutEntry c =
      { c with settled := c.settled ++ (tracked entries).map fun k => (k, .timeout) } := by
  induction entries generalizing c with
  | nil => simp [tracked]
  | cons e entries ih =>
    rw [List.foldl_cons, ih, handleTimeoutEntry, Messaging.settle]
    cases h : e.callback <;> simp [tracked, h]

theorem kept_handleTimeout (h : Kept c c.messageQueue) (now : Nat) :
    Kept (c.handleTimeout now) (c.handleTimeout now).messageQueue := by
  unfold handleTimeout
  rw [foldl_handleTimeoutEntry]
  refine h.settle (c.entries.filter (·.isTimeout now)) .timeout ?_ rfl rfl rfl
  exact (by simpa using (List.filter_append_perm (·.isTimeout now) c.entries).symm)

theorem messageArrived_cases (c : Messaging) (dict : Dict) (ipaddr : String) (port : UInt16) :
    (∃ e, c.messageArrived F dict ipaddr port = (.error e, c)) ∨
      c.messageArrived F dict ipaddr port = (.ok none, c) ∨
      ∃ tid, Dict.getString dict (name "t") = some tid ∧
        ∃ entry ∈ c.entries, entry.match tid ipaddr port = true ∧
          ((∃ message, c.messageArrived F dict ipaddr port =
              (.ok (some (message, entry.callback)), { c with entries := c.entries.erase entry })) ∨
            ∃ e, c.messageArrived F dict ipaddr port =
              (.error e, { c with entries := c.entries.erase entry }.handleTimeoutEntry entry)) := by
  unfold messageArrived
  split
  next => exact .inl ⟨_, rfl⟩
  next tid htid =>
    split
    next => exact .inr (.inl rfl)
    next entry hfind =>
      refine .inr (.inr ⟨tid, htid, entry, List.mem_of_find?_eq_some hfind, ?_, ?_⟩)
      · simpa using List.find?_some (p := fun (e : DHTMessageTrackerEntry) => e.match tid ipaddr port) hfind
      · dsimp only
        split
        next => exact .inl ⟨_, rfl⟩
        next => exact .inr ⟨_, rfl⟩

/-- What a datagram does: it settles the query of one entry that it matches, or none. -/
theorem receiveMessage_cases (c : Messaging) (data : Bytes) (remoteAddr : String)
    (remotePort : UInt16) :
    (∃ f, (c.receiveMessage F data remoteAddr remotePort).2 = { c with firewallState := f }) ∨
      ∃ dict tid entry how, F.decode data = .ok (some (.dict dict)) ∧
        Dict.getString dict (name "t") = some tid ∧ entry ∈ c.entries ∧
        entry.match tid remoteAddr remotePort = true ∧
        (c.receiveMessage F data remoteAddr remotePort).2 =
          { c with entries := c.entries.erase entry }.settle entry.callback how := by
  unfold receiveMessage
  dsimp only
  split
  next dict hdec =>
    split
    next => exact .inl ⟨_, rfl⟩
    next =>
      split
      next =>
        obtain ⟨e, hm⟩ | hm | ⟨tid, htid, entry, hmem, hmatch, ⟨message, hm⟩ | ⟨e, hm⟩⟩ :=
          messageArrived_cases (F := F) c dict remoteAddr remotePort
        · rw [hm]
          exact .inl ⟨_, rfl⟩
        · rw [hm]
          exact .inl ⟨_, rfl⟩
        · rw [hm]
          exact .inr ⟨dict, tid, entry, .received, hdec, htid, hmem, hmatch, rfl⟩
        · rw [hm]
          exact .inr ⟨dict, tid, entry, .timeout, hdec, htid, hmem, hmatch, rfl⟩
      next =>
        split
        next => split <;> exact .inl ⟨_, rfl⟩
        next => exact .inl ⟨_, rfl⟩
  next => exact .inl ⟨_, rfl⟩

theorem kept_receiveMessage (h : Kept c c.messageQueue) (data : Bytes) (remoteAddr : String)
    (remotePort : UInt16) :
    Kept (c.receiveMessage F data remoteAddr remotePort).2
      (c.receiveMessage F data remoteAddr remotePort).2.messageQueue := by
  rcases receiveMessage_cases (F := F) c data remoteAddr remotePort with
    ⟨f, hf⟩ | ⟨_, _, entry, how, -, -, hmem, -, hc⟩
  · rw [hf]
    exact h.congr rfl rfl rfl
  · rw [hc]
    refine h.settle [entry] how (List.perm_cons_erase hmem) rfl rfl ?_
    cases hcb : entry.callback <;> simp [Messaging.settle, tracked, hcb]

/-! ## Runs -/

/-- The addresses are the same, or one is the IPv4-mapped form of the other. -/
def SameAddress (a b : String) : Prop := a = b ∨ a = "::ffff:" ++ b ∨ b = "::ffff:" ++ a

theorem match_iff {e : DHTMessageTrackerEntry} {tid : Bytes} {ipaddr : String} {port : UInt16}
    (h : e.match tid ipaddr port = true) :
    e.transactionID = tid ∧ e.targetNode.port = port ∧ SameAddress e.targetNode.ipaddr ipaddr := by
  unfold DHTMessageTrackerEntry.match at h
  split at h
  · cases h
  next hne =>
    push Not at hne
    refine ⟨hne.1, hne.2, ?_⟩
    split at h
    next heq => exact .inl heq
    next =>
      split at h
      next => exact .inr (.inl (of_decide_eq_true h))
      next =>
        split at h
        next => exact .inr (.inr (of_decide_eq_true h))
        next => cases h

/-- Every query with a callback is queued, tracked or settled, and its callback is called once at
most. -/
def Accounted (c : Messaging) : Prop :=
  ∀ k m, c.callbacks[k]? = some m → m.isReply = false →
    (queued c.messageQueue).count k + (tracked c.entries).count k + c.called.count k = 1

/-- A datagram settles one query at most: one that is tracked, has the transaction id of the
datagram and was sent to where the datagram comes from. -/
def Addressed (F : Factory R Q) (c : Messaging) : Event → Prop
  | .receiveMessage data remoteAddr remotePort =>
    (c.step F (.receiveMessage data remoteAddr remotePort)).called = c.called ∨
      ∃ k m dict, (c.step F (.receiveMessage data remoteAddr remotePort)).called = c.called ++ [k] ∧
        k ∈ tracked c.entries ∧ c.callbacks[k]? = some m ∧ m.isReply = false ∧
        F.decode data = .ok (some (.dict dict)) ∧
        Dict.getString dict (name "t") = some m.transactionID ∧ m.remoteNode.port = remotePort ∧
        SameAddress m.remoteNode.ipaddr remoteAddr
  | _ => True

theorem kept_step (h : Kept c c.messageQueue) (e : Event) :
    Kept (c.step F e) (c.step F e).messageQueue := by
  cases e with
  | addMessageToQueue message timeout withCallback =>
    exact kept_addMessageToQueue h message timeout withCallback
  | sendMessages now results => exact kept_sendLoop results h
  | handleTimeout now => exact kept_handleTimeout h now
  | receiveMessage data remoteAddr remotePort => exact kept_receiveMessage h ..

theorem kept_new : Kept {} [] := ⟨nofun, nofun, nofun, nofun⟩

theorem addressed (h : Kept c c.messageQueue) (e : Event) : Addressed F c e := by
  cases e with
  | receiveMessage data remoteAddr remotePort =>
    rcases receiveMessage_cases (F := F) c data remoteAddr remotePort with
      ⟨f, hf⟩ | ⟨dict, tid, entry, how, hdec, htid, hmem, hmatch, hc⟩
    · left
      rw [step, hf]
      rfl
    · cases hcb : entry.callback with
      | none =>
        left
        rw [step, hc, hcb]
        simp [Messaging.settle, called]
      | some k =>
        obtain ⟨m, hm, hq, htid', hnode⟩ := h.tracked entry hmem k hcb
        obtain ⟨h1, h2, h3⟩ := match_iff hmatch
        refine .inr ⟨k, m, dict, ?_, List.mem_filterMap.mpr ⟨entry, hmem, hcb⟩, hm, hq, hdec, ?_, ?_,
          ?_⟩
        · rw [step, hc, hcb]
          simp [Messaging.settle, called]
        · rw [htid, ← htid', h1]
        · rw [← hnode, h2]
        · rwa [← hnode]
  | _ => trivial

/-- In every run each query with a callback is at any time queued, tracked or settled, by exactly
one call, and datagrams settle only the queries they answer. -/
theorem settled_once (F : Factory R Q) (es : List Event) :
    Visits (step F) Accounted {} es ∧ Along (step F) (Addressed F) {} es := by
  have hall : ∀ (es : List Event) (c : Messaging), Kept c c.messageQueue →
      Along (step F) (Addressed F) c es := by
    intro es
    induction es with
    | nil => exact fun _ _ => trivial
    | cons e es ih => exact fun c h => ⟨addressed h e, ih _ (kept_step h e)⟩
  exact ⟨visits_of_along (P := fun _ _ => True) (fun c e h _ => kept_step (c := c) h e)
    (fun c h => h.places) kept_new (.of_forall fun _ _ => trivial), hall es {} kept_new⟩

end FluxCore.Dht.Messaging
