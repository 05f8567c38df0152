import FluxCore.Dht.Node
import FluxCore.Lib.KeyedSort
import FluxCore.Lib.Run
import Mathlib.Data.Finset.Card
import Mathlib.Data.Finset.Image

/-!
# The node lookup

A `DHTAbstractNodeLookupTask` keeps the closest nodes it knows of and whether it has asked them, and
has up to `ALPHA` queries in flight. An answer brings new nodes to the front of `entries`; they are
sorted by the distance to the target and one of each id is kept. `DHTIDCloser` also holds of two
entries with one id, so the last of these is kept, which is the oldest.
-/

namespace FluxCore.Dht

structure DHTNodeLookupEntry where
  node : DHTNode
  used : Bool := false
  deriving DecidableEq, Repr

namespace DHTNodeLookupEntry

/-- `operator==`. -/
def beq (a b : DHTNodeLookupEntry) : Bool := a.node.id = b.node.id

end DHTNodeLookupEntry

def DHTIDCloser (targetID : ID) (m1 m2 : DHTNodeLookupEntry) : Bool :=
  XORCloser targetID m1.node.id m2.node.id

/-- `outstanding` are the nodes whose query is neither answered nor timed out, `asked` the ids a
query was sent to: the first is what the dispatcher holds for the task, the second is its history.
-/
structure DHTAbstractNodeLookupTask where
  targetID : ID
  localID : ID
  entries : List DHTNodeLookupEntry := []
  inFlightMessage : Nat := 0
  finished : Bool := false
  outstanding : List DHTNode := []
  asked : List ID := []
  deriving DecidableEq, Repr

namespace DHTAbstractNodeLookupTask

def ALPHA : Nat := 5

/-- `--n` for a `size_t`. -/
def decrement (n : Nat) : Nat := (n + (2 ^ 64 - 1)) % 2 ^ 64

def toEntries (nodes : List DHTNode) : List DHTNodeLookupEntry := nodes.map fun node => { node }

/-- The loop of `sendMessage` from a number of messages in flight: the entries it leaves and the
nodes that are asked. -/
def sendLoop : Nat → List DHTNodeLookupEntry → List DHTNodeLookupEntry × List DHTNode
  | _, [] => ([], [])
  | inFlight, e :: es =>
    if inFlight < ALPHA then
      if e.used = false then
        let (es', nodes) := sendLoop (inFlight + 1) es
        ({ e with used := true } :: es', e.node :: nodes)
      else
        let (es', nodes) := sendLoop inFlight es
        (e :: es', nodes)
    else (e :: es, [])

def sendMessage (s : DHTAbstractNodeLookupTask) : DHTAbstractNodeLookupTask :=
  let (entries, nodes) := sendLoop s.inFlightMessage s.entries
  { s with
    entries
    inFlightMessage := s.inFlightMessage + nodes.length
    outstanding := s.outstanding ++ nodes
    asked := s.asked ++ nodes.map (·.id) }

def sendMessageAndCheckFinish (s : DHTAbstractNodeLookupTask) : DHTAbstractNodeLookupTask :=
  let s := sendMessage s
  if s.inFlightMessage = 0 then { s with finished := true } else s

/-- `startup`, when the routing table gives `nodes`. -/
def startup (nodes : List DHTNode) (s : DHTAbstractNodeLookupTask) : DHTAbstractNodeLookupTask :=
  let s := { s with entries := toEntries nodes }
  if s.entries = [] then { s with finished := true }
  else
    let s := sendMessage { s with inFlightMessage := 0 }
    if s.inFlightMessage = 0 then { s with finished := true } else s

/-- The entry takes over the node that answers from its address. -/
def rename (remoteNode : DHTNode) (e : DHTNodeLookupEntry) : DHTNodeLookupEntry :=
  if e.node.ipaddr = remoteNode.ipaddr ∧ e.node.port = remoteNode.port then
    { e with node := remoteNode }
  else e

def pushNew (localID : ID) (newEntries entries : List DHTNodeLookupEntry) :
    List DHTNodeLookupEntry :=
  newEntries.foldl (fun entries ne => if localID ≠ ne.node.id then ne :: entries else entries)
    entries

/-- Sorts the entries, removes the double ones and cuts off what is behind the first `K`. -/
def merge (targetID : ID) (entries : List DHTNodeLookupEntry) : List DHTNodeLookupEntry :=
  (unique DHTNodeLookupEntry.beq (stableSort (DHTIDCloser targetID) entries)).take DHTBucket.K

/-- The entries before they are merged, when `remoteNode` answers with `nodes`. -/
def candidates (remoteNode : DHTNode) (nodes : List DHTNode) (s : DHTAbstractNodeLookupTask) :
    List DHTNodeLookupEntry :=
  pushNew s.localID (toEntries nodes) (s.entries.map (rename remoteNode))

def onReceived (remoteNode : DHTNode) (nodes : List DHTNode) (s : DHTAbstractNodeLookupTask) :
    DHTAbstractNodeLookupTask :=
  let s := { s with inFlightMessage := decrement s.inFlightMessage }
  sendMessageAndCheckFinish { s with entries := merge s.targetID (candidates remoteNode nodes s) }

def onTimeout (node : DHTNode) (s : DHTAbstractNodeLookupTask) : DHTAbstractNodeLookupTask :=
  let s := { s with inFlightMessage := decrement s.inFlightMessage }
  sendMessageAndCheckFinish { s with entries := s.entries.eraseP (·.node.id = node.id) }

/-- What comes of a query: the node answers, under an id that need not be the one it was asked
under, or it does not. -/
inductive Event where
  | reply (query : DHTNode) (id : ID) (nodes : List DHTNode)
  | timeout (query : DHTNode)

namespace Event

def query : Event → DHTNode
  | reply query _ _ => query
  | timeout query => query

end Event

/-- A message comes from the address its query went to. -/
def step (s : DHTAbstractNodeLookupTask) : Event → DHTAbstractNodeLookupTask
  | .reply query id nodes =>
    onReceived { query with id } nodes { s with outstanding := s.outstanding.erase query }
  | .timeout query => onTimeout query { s with outstanding := s.outstanding.erase query }

/-- Only a query that is in flight is answered or times out. -/
def Answers (s : DHTAbstractNodeLookupTask) (e : Event) : Prop := e.query ∈ s.outstanding

instance (s : DHTAbstractNodeLookupTask) : DecidablePred (Answers s) :=
  fun e => inferInstanceAs (Decidable (e.query ∈ s.outstanding))

/-! ## Sending -/

/-- The ids that wait to be asked. -/
def unused (entries : List DHTNodeLookupEntry) : List ID :=
  (entries.filter (!·.used)).map (·.node.id)

theorem mem_unused {entries : List DHTNodeLookupEntry} {x : ID} :
    x ∈ unused entries ↔ ∃ e ∈ entries, e.used = false ∧ e.node.id = x := by
  simp [unused, and_assoc]

/-- The loop asks the first of those that wait. -/
theorem unused_sendLoop (n : Nat) (entries : List DHTNodeLookupEntry) :
    unused entries = (sendLoop n entries).2.map (·.id) ++ unused (sendLoop n entries).1 := by
  fun_induction sendLoop n entries with
  | case1 n => rfl
  | case2 n e es hn hu es' nodes heq ih =>
    rw [heq] at ih
    simpa [unused, hu] using ih
  | case3 n e es hn hu es' nodes heq ih =>
    rw [heq] at ih
    simpa [unused, hu] using ih
  | case4 n e es hn => rfl

theorem sendLoop_nodes (n : Nat) (entries : List DHTNodeLookupEntry) :
    (sendLoop n entries).1.map (·.node) = entries.map (·.node) := by
  fun_induction sendLoop n entries with
  | case1 n => rfl
  | case2 n e es hn hu es' nodes heq ih =>
    rw [heq] at ih
    simpa using ih
  | case3 n e es hn hu es' nodes heq ih =>
    rw [heq] at ih
    simpa using ih
  | case4 n e es hn => rfl

theorem sendLoop_le (n : Nat) (entries : List DHTNodeLookupEntry) (hn : n ≤ ALPHA) :
    n + (sendLoop n entries).2.length ≤ ALPHA := by
  fun_induction sendLoop n entries with
  | case1 n => simpa
  | case2 n e es hn' hu es' nodes heq ih =>
    have ih := ih hn'
    rw [heq] at ih
    dsimp only [List.length_cons] at ih ⊢
    omega
  | case3 n e es hn' hu es' nodes heq ih =>
    have ih := ih hn
    rwa [heq] at ih
  | case4 n e es hn' => simpa

/-! ## Merging -/

theorem pushNew_eq (localID : ID) (newEntries entries : List DHTNodeLookupEntry) :
    pushNew localID newEntries entries =
      (newEntries.filter (·.node.id ≠ localID)).reverse ++ entries := by
  induction newEntries generalizing entries with
  | nil => rfl
  | cons ne newEntries ih =>
    rw [pushNew, List.foldl_cons, ← pushNew, ih]
    by_cases h : ne.node.id = localID
    · simp [h]
    · simp [h, Ne.symm h]

variable (targetID : ID)

def key (e : DHTNodeLookupEntry) : Nat := targetID.distance e.node.id

theorem DHTIDCloser_iff (a b : DHTNodeLookupEntry) :
    DHTIDCloser targetID a b = true ↔ key targetID a ≤ key targetID b :=
  XORCloser_iff ..

theorem key_eq_iff {a b : DHTNodeLookupEntry} :
    key targetID a = key targetID b ↔ a.node.id = b.node.id :=
  ⟨ID.distance_inj, fun h => congrArg targetID.distance h⟩

theorem beq_iff (a b : DHTNodeLookupEntry) :
    DHTNodeLookupEntry.beq a b = true ↔ key targetID a = key targetID b := by
  rw [key_eq_iff, DHTNodeLookupEntry.beq, decide_eq_true_iff]

/-- The entries after an answer: closer ones first, each id once, no more than `K`. -/
structure Merged (entries : List DHTNodeLookupEntry) : Prop where
  sorted : entries.Pairwise (key targetID · < key targetID ·)
  distinct : (entries.map (·.node.id)).Nodup
  length_le : entries.length ≤ DHTBucket.K

theorem merged_merge (entries : List DHTNodeLookupEntry) :
    Merged targetID (merge targetID entries) := by
  have hp : (merge targetID entries).Pairwise (key targetID · < key targetID ·) :=
    (pairwise_unique_stableSort (DHTIDCloser_iff targetID) (beq_iff targetID) entries).sublist
      (List.take_sublist ..)
  refine ⟨hp, ?_, List.length_take_le ..⟩
  refine List.pairwise_map.mpr (hp.imp fun hlt heq => ?_)
  exact hlt.ne ((key_eq_iff targetID).mpr heq)

/-- The number of ids that are closer to the target than `x`. -/
def closer (ids : List ID) (x : ID) : Nat :=
  (ids.toFinset.filter (targetID.distance · < targetID.distance x)).card

theorem closer_eq (entries : List DHTNodeLookupEntry) (e : DHTNodeLookupEntry) :
    ((unique DHTNodeLookupEntry.beq (stableSort (DHTIDCloser targetID) entries)).filter
      (key targetID · < key targetID e)).length =
      closer targetID (entries.map (·.node.id)) e.node.id := by
  have hcomp := DHTIDCloser_iff targetID
  have heq := beq_iff targetID
  generalize hl : unique DHTNodeLookupEntry.beq (stableSort (DHTIDCloser targetID) entries) = l
  have hp : l.Pairwise (key targetID · < key targetID ·) :=
    hl ▸ pairwise_unique_stableSort hcomp heq entries
  have hnodup : ((l.filter (key targetID · < key targetID e)).map (·.node.id)).Nodup :=
    List.pairwise_map.mpr ((hp.filter _).imp fun hlt h => hlt.ne ((key_eq_iff targetID).mpr h))
  have hset : ((l.filter (key targetID · < key targetID e)).map (·.node.id)).toFinset =
      (entries.map (·.node.id)).toFinset.filter
        (targetID.distance · < targetID.distance e.node.id) := by
    ext x
    simp only [List.mem_toFinset, List.mem_map, List.mem_filter, decide_eq_true_eq,
      Finset.mem_filter]
    constructor
    · rintro ⟨b, ⟨hb, hlt⟩, rfl⟩
      exact ⟨⟨b, mem_of_mem_unique_stableSort (hl ▸ hb), rfl⟩, hlt⟩
    · rintro ⟨⟨b, hb, rfl⟩, hlt⟩
      obtain ⟨a, ha, hab⟩ := exists_mem_unique_stableSort hcomp heq hb
      exact ⟨a, ⟨hl ▸ ha, hab.trans_lt hlt⟩, (key_eq_iff targetID).mp hab⟩
  rw [closer, ← hset, List.toFinset_card_of_nodup hnodup, List.length_map]

/-- Of the entries with an id the last is kept, if fewer than `K` ids are closer. -/
theorem mem_merge {entries : List DHTNodeLookupEntry} {e : DHTNodeLookupEntry} :
    e ∈ merge targetID entries ↔
      (entries.filter (·.node.id = e.node.id)).getLast? = some e ∧
        closer targetID (entries.map (·.node.id)) e.node.id < DHTBucket.K := by
  have hcomp := DHTIDCloser_iff targetID
  have heq := beq_iff targetID
  have hfilter : (entries.filter fun b => decide (key targetID b = key targetID e)) =
      entries.filter (·.node.id = e.node.id) :=
    List.filter_congr fun b _ => by simp only [key_eq_iff]
  rw [merge, mem_take_iff (pairwise_unique_stableSort hcomp heq entries),
    mem_unique_stableSort hcomp heq, hfilter, closer_eq]

end DHTAbstractNodeLookupTask

end FluxCore.Dht
