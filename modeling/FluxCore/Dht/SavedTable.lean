import FluxCore.Dht.Krpc
import FluxCore.Lib.Decoder

/-!
# The routing table in a file

`DHTRoutingTableSerializer`, `DHTRoutingTableDeserializer` and the saving of
`DHTAutoSaveCommand`. A table is written to a temporary file, which is renamed once it is complete.
-/

namespace FluxCore.Dht.SavedTable

open Utp (Bytes)
open Krpc (Node bytes readID inFamily)
open Net (Resolver Family getCompactLength)

/-! ## Writing -/

structure Table where
  time : UInt64
  localNode : ID
  nodes : List Node

def header : Bytes := [0xa1, 0xa2, 0x02, 0, 0, 0, 0, 0x03]

/-- The header of version 2, in which the time has 4 bytes. -/
def headerCompat : Bytes := [0xa1, 0xa2, 0x02, 0, 0, 0, 0, 0x02]

def zero (n : Nat) : Bytes := List.replicate n 0

/-- The address of a node, or zeros in its place. -/
def compactPeer (net : Resolver) (family : Family) (node : Node) : Bytes :=
  let compact := net.packcompact node.ipaddr node.port
  if compact.length ≠ getCompactLength family then zero (getCompactLength family) else compact

def serializeNode (net : Resolver) (family : Family) (node : Node) : Bytes :=
  let clen := getCompactLength family
  [UInt8.ofNat clen] ++ zero 7 ++ compactPeer net family node ++ zero (24 - clen) ++
    bytes node.id ++ zero 4

def serialize (net : Resolver) (family : Family) (t : Table) : Bytes :=
  header ++ octets 8 t.time.toNat ++ zero 8 ++ bytes t.localNode ++ zero 4 ++
    octets 4 t.nodes.length ++ zero 4 ++ t.nodes.flatMap (serializeNode net family)

/-- The two files that saving is about. -/
structure Disk where
  file : Option Bytes := none
  temp : Option Bytes := none

/-- How an attempt to save ends: with `cut`, after a write or the closing of the file has failed, or
because the program has ended. -/
inductive Attempt where
  | notOpened
  | cut (left : Bytes)
  | notRenamed
  | saved
  deriving DecidableEq, Repr

/-- `save`, with the exception of `serialize` that it logs. -/
def save (filename : String) (content : Bytes) (a : Attempt) (disk : Disk) :
    Except String Unit × Disk :=
  let failed := .error s!"Failed to save DHT routing table to {filename}."
  match a with
  | .notOpened => (failed, { disk with temp := none })
  | .cut left => (failed, { disk with temp := some left })
  | .notRenamed => (failed, { disk with temp := some content })
  | .saved => (.ok (), { file := some content, temp := none })

/-! ## Reading -/

structure DHTRoutingTableDeserializer where
  serializedTime : Nat := 0
  localNode : Option ID := none
  nodes : List Node := []

def failedToLoad : String := "Failed to load DHT routing table."

def readBytes (n : Nat) : Decoder UInt8 String Bytes := .next failedToLoad n

/-- The version that the header tells. -/
def readVersion (filename : String) : Decoder UInt8 String Nat := do
  let buf ← readBytes 8
  if buf = header then return 3
  else if buf = headerCompat then return 2
  else throw s!"Failed to load DHT routing table from {filename}. cause:bad header"

/-- The header and the time: the version and the seconds. -/
def readTime (filename : String) : Decoder UInt8 String (Nat × Nat) := do
  let version ← readVersion filename
  let temp ← readBytes (if version = 2 then 4 else 8)
  return (version, octetsValue temp)

/-- An entry, which may be one to skip. -/
def readNode (net : Resolver) (family : Family) : Decoder UInt8 String (Option Node) := do
  let clen := getCompactLength family
  let peerInfoLen ← readBytes 1
  if octetsValue peerInfoLen ≠ clen then do
    let _ ← readBytes (7 + 48)
    return none
  else
    let _ ← readBytes 7
    let buf ← readBytes clen
    let peer := net.unpackcompact family buf
    if buf = zero clen ∨ peer.1 = [] then do
      let _ ← readBytes (48 - clen)
      return none
    else
      let _ ← readBytes (24 - clen)
      let id ← readBytes DHT_ID_LENGTH
      let _ ← readBytes 4
      return some ⟨readID id, peer.1, peer.2⟩

/-- The local node and the nodes. -/
def readTable (net : Resolver) (family : Family) : Decoder UInt8 String (ID × List Node) := do
  let _ ← readBytes 8
  let localNode ← readBytes DHT_ID_LENGTH
  let _ ← readBytes 4
  let temp32 ← readBytes 4
  let _ ← readBytes 4
  let nodes ← Decoder.times (readNode net family) (octetsValue temp32)
  return (readID localNode, nodes.reduceOption)

/-- What follows the time. In version 2 there are 4 reserved bytes in front. -/
def readRest (net : Resolver) (family : Family) (version : Nat) :
    Decoder UInt8 String (ID × List Node) := do
  let _ ← readBytes (if version = 2 then 4 else 0)
  readTable net family

/-- The time is set before the rest has been read, all else after it. -/
def deserialize (net : Resolver) (family : Family) (filename : String) (file : Option Bytes)
    (d : DHTRoutingTableDeserializer) : Except String Unit × DHTRoutingTableDeserializer :=
  match file with
  | none => (.error s!"Failed to load DHT routing table from {filename}", d)
  | some data =>
    match readTime filename data with
    | .error e => (.error e, d)
    | .ok ((version, serializedTime), rest) =>
      match readRest net family version rest with
      | .error e => (.error e, { d with serializedTime })
      | .ok ((localNode, nodes), _) => (.ok (), { serializedTime, localNode, nodes })

/-! ## What is written is read -/

section Reading

variable {net : Resolver} {family : Family} {filename : String} {t : Table} {node : Node}
  {d : DHTRoutingTableDeserializer}

/-- The node as it is restored: one of another family is not, and neither is one of all zeros. -/
def restored (net : Resolver) (family : Family) (node : Node) : Option Node :=
  if inFamily net family node.peer = true ∧
      net.packcompact node.ipaddr node.port ≠ zero (getCompactLength family) then some node
  else none

/-- What the file can hold: its number of nodes has 32 bits, and the addresses of the family are
as the system writes them. -/
structure Table.Savable (net : Resolver) (family : Family) (t : Table) : Prop where
  length : t.nodes.length < 2 ^ 32
  writes : ∀ node ∈ t.nodes, inFamily net family node.peer = true → net.Writes family node.ipaddr

theorem length_zero (n : Nat) : (zero n).length = n := List.length_replicate

theorem length_compactPeer (net : Resolver) (family : Family) (node : Node) :
    (compactPeer net family node).length = getCompactLength family := by
  rw [compactPeer]
  split
  · exact length_zero _
  next h => exact of_not_not h

theorem compactPeer_of_inFamily (h : inFamily net family node.peer = true) :
    compactPeer net family node = net.packcompact node.ipaddr node.port :=
  if_neg (not_not.mpr (of_decide_eq_true h))

theorem compactPeer_of_not_inFamily (h : ¬inFamily net family node.peer = true) :
    compactPeer net family node = zero (getCompactLength family) :=
  if_pos fun hlen => h (decide_eq_true hlen)

theorem reads_bytes {s : Bytes} {n : Nat} (h : s.length = n) :
    Decoder.Reads failedToLoad (readBytes n) s s :=
  .next h

theorem octetsValue_clen (family : Family) :
    octetsValue [UInt8.ofNat (getCompactLength family)] = getCompactLength family := by
  cases family <;> rfl

/-- An entry is read as it was written. -/
theorem reads_readNode
    (h : inFamily net family node.peer = true → net.Writes family node.ipaddr) :
    Decoder.Reads failedToLoad (readNode net family) (serializeNode net family node)
      (restored net family node) := by
  have hclen : getCompactLength family ≤ 18 := by cases family <;> decide
  have hreserved : (zero (24 - getCompactLength family) ++ (bytes node.id ++ zero 4)).length =
      48 - getCompactLength family := by
    rw [List.length_append, List.length_append, length_zero, length_zero, Krpc.length_bytes,
      DHT_ID_LENGTH]
    omega
  rw [readNode, serializeNode]
  simp only [List.append_assoc]
  refine (reads_bytes (n := 1) rfl).bind ?_
  rw [if_neg (not_not.mpr (octetsValue_clen family))]
  refine (reads_bytes (length_zero 7)).bind ((reads_bytes (length_compactPeer ..)).bind ?_)
  by_cases hin : inFamily net family node.peer = true
  · have hunpack : net.unpackcompact family (net.packcompact node.ipaddr node.port) =
        (node.ipaddr, node.port) := (h hin).unpackcompact
    rw [compactPeer_of_inFamily hin, hunpack]
    by_cases hzero : net.packcompact node.ipaddr node.port = zero (getCompactLength family)
    · rw [if_pos (.inl hzero), restored, if_neg fun h0 => h0.2 hzero]
      exact (reads_bytes hreserved).bind_pure fun _ => none
    · rw [if_neg fun h0 => h0.elim hzero (h hin).ne_nil, restored, if_pos ⟨hin, hzero⟩]
      refine (reads_bytes (length_zero _)).bind ((reads_bytes (Krpc.length_bytes _)).bind ?_)
      rw [Krpc.readID_bytes]
      exact (reads_bytes (length_zero 4)).bind_pure fun _ => some node
  · rw [compactPeer_of_not_inFamily hin, if_pos (.inl rfl), restored, if_neg fun h0 => hin h0.1]
    exact (reads_bytes hreserved).bind_pure fun _ => none

/-- The parts of the file that `readTable` reads. -/
def tableBytes (net : Resolver) (family : Family) (t : Table) : Bytes :=
  zero 8 ++ (bytes t.localNode ++ (zero 4 ++ (octets 4 t.nodes.length ++ (zero 4 ++
    t.nodes.flatMap (serializeNode net family)))))

theorem serialize_eq : serialize net family t =
    (header ++ octets 8 t.time.toNat) ++ tableBytes net family t := by
  simp only [serialize, tableBytes, List.append_assoc]

theorem reads_readTime (filename : String) (time : UInt64) :
    Decoder.Reads failedToLoad (readTime filename) (header ++ octets 8 time.toNat)
      (3, time.toNat) := by
  have hheader : header.length = 8 := rfl
  have hversion : Decoder.Reads failedToLoad (readVersion filename) header 3 := by
    have h := (reads_bytes hheader).bind (f := fun buf =>
      if buf = header then (return 3 : Decoder UInt8 String Nat)
      else if buf = headerCompat then return 2
      else throw s!"Failed to load DHT routing table from {filename}. cause:bad header")
        (.pure 3)
    rwa [List.append_nil] at h
  rw [readTime]
  refine hversion.bind ?_
  have hread := (reads_bytes (length_octets 8 time.toNat)).bind_pure
    fun temp => (3, octetsValue temp)
  rwa [octetsValue_octets_of_lt (by exact time.toNat_lt)] at hread

theorem reads_readTable (h : t.Savable net family) :
    Decoder.Reads failedToLoad (readTable net family) (tableBytes net family t)
      (t.localNode, t.nodes.filterMap (restored net family)) := by
  have hcount : octetsValue (octets 4 t.nodes.length) = t.nodes.length :=
    octetsValue_octets_of_lt (by exact h.length)
  rw [readTable, tableBytes]
  refine (reads_bytes (length_zero 8)).bind ((reads_bytes (Krpc.length_bytes _)).bind
    ((reads_bytes (length_zero 4)).bind ((reads_bytes (length_octets 4 _)).bind
      ((reads_bytes (length_zero 4)).bind ?_))))
  have hnodes : Decoder.Reads failedToLoad
      (Decoder.times (readNode net family) t.nodes.length)
      (t.nodes.flatMap (serializeNode net family)) (t.nodes.map (restored net family)) :=
    .times fun node hnode => reads_readNode (h.writes node hnode)
  have hreduce : (t.nodes.map (restored net family)).reduceOption =
      t.nodes.filterMap (restored net family) := by
    change List.filterMap id _ = _
    rw [List.filterMap_map]
    rfl
  rw [hcount, Krpc.readID_bytes, ← hreduce]
  exact hnodes.bind_pure fun nodes => (t.localNode, nodes.reduceOption)

theorem readTime_serialize : readTime filename (serialize net family t) =
    .ok ((3, t.time.toNat), tableBytes net family t) := by
  rw [serialize_eq]
  exact (reads_readTime filename t.time).whole (tableBytes net family t)

theorem reads_readRest (h : t.Savable net family) :
    Decoder.Reads failedToLoad (readRest net family 3) (tableBytes net family t)
      (t.localNode, t.nodes.filterMap (restored net family)) :=
  (reads_bytes (s := []) rfl).bind (reads_readTable h)

theorem readRest_tableBytes (h : t.Savable net family) :
    readRest net family 3 (tableBytes net family t) =
      .ok ((t.localNode, t.nodes.filterMap (restored net family)), []) := by
  have htable := (reads_readRest h).whole []
  rwa [List.append_nil] at htable

theorem deserialize_of_read {data rest rest' : Bytes} {version time : Nat} {localNode : ID}
    {nodes : List Node} (htime : readTime filename data = .ok ((version, time), rest))
    (htable : readRest net family version rest = .ok ((localNode, nodes), rest')) :
    deserialize net family filename (some data) d = (.ok (), ⟨time, some localNode, nodes⟩) := by
  rw [deserialize]
  simp only [htime, htable]

theorem steady_readVersion (filename : String) :
    Decoder.Steady failedToLoad (readVersion filename) := by
  refine (Decoder.Steady.next 8).bind fun buf => ?_
  split
  · exact .pure 3
  split
  · exact .pure 2
  · exact .throw _

theorem steady_readTime (filename : String) :
    Decoder.Steady failedToLoad (readTime filename) :=
  (steady_readVersion filename).bind fun version =>
    (Decoder.Steady.next _).bind fun temp => .pure (version, octetsValue temp)

theorem steady_readNode (net : Resolver) (family : Family) :
    Decoder.Steady failedToLoad (readNode net family) := by
  refine (Decoder.Steady.next 1).bind fun peerInfoLen => ?_
  dsimp only
  split
  · exact (Decoder.Steady.next _).bind fun _ => .pure none
  refine (Decoder.Steady.next 7).bind fun _ => (Decoder.Steady.next _).bind fun buf => ?_
  split
  · exact (Decoder.Steady.next _).bind fun _ => .pure none
  · exact (Decoder.Steady.next _).bind fun _ => (Decoder.Steady.next _).bind fun id =>
      (Decoder.Steady.next 4).bind fun _ => .pure _

theorem steady_readRest (net : Resolver) (family : Family) (version : Nat) :
    Decoder.Steady failedToLoad (readRest net family version) :=
  (Decoder.Steady.next _).bind fun _ => (Decoder.Steady.next 8).bind fun _ =>
    (Decoder.Steady.next _).bind fun localNode => (Decoder.Steady.next 4).bind fun _ =>
      (Decoder.Steady.next 4).bind fun _ => (Decoder.Steady.next 4).bind fun _ =>
        ((steady_readNode net family).times _).bind fun nodes =>
          .pure (readID localNode, nodes.reduceOption)

/-- A file that is read to its end, of either version. -/
def Whole (net : Resolver) (family : Family) (filename : String) (data : Bytes) : Prop :=
  ∃ version time rest table, readTime filename data = .ok ((version, time), rest) ∧
    readRest net family version rest = .ok (table, [])

theorem whole_serialize (h : t.Savable net family) :
    Whole net family filename (serialize net family t) :=
  ⟨3, _, _, _, readTime_serialize, readRest_tableBytes h⟩

/-- A file that has been cut short is refused, and of what had been loaded before at most the time
has changed, to that of the file. -/
theorem deserialize_cut {data cut : Bytes} (h : Whole net family filename data)
    (hcut : cut <+: data) (hne : cut ≠ data) :
    ∃ time, (time = d.serializedTime ∨
        time = (deserialize net family filename (some data) d).2.serializedTime) ∧
      deserialize net family filename (some cut) d =
        (.error failedToLoad, { d with serializedTime := time }) := by
  obtain ⟨version, time, rest, ⟨localNode, nodes⟩, htime, hrest⟩ := h
  have hdata := deserialize_of_read (d := d) htime hrest
  obtain ⟨front, rfl, hfront⟩ := steady_readTime filename htime
  obtain ⟨back, rfl, hback⟩ := steady_readRest net family version hrest
  rw [List.append_nil] at hcut hne hdata ⊢
  rw [hdata, deserialize]
  by_cases hlong : front <+: cut
  · obtain ⟨q, rfl⟩ := hlong
    refine ⟨time, .inr rfl, ?_⟩
    simp only [hfront.whole q, hback.short ((List.prefix_append_right_inj _).mp hcut)
      fun h0 => hne (congrArg (front ++ ·) h0)]
  · have hshort : cut <+: front :=
      (List.prefix_or_prefix_of_prefix hcut (List.prefix_append _ _)).resolve_right hlong
    refine ⟨d.serializedTime, .inl rfl, ?_⟩
    simp only [hfront.short hshort fun heq => hlong (heq ▸ List.prefix_rfl)]

/-- A table with a node of each family and one that has no address. -/
def threeNodes : Table :=
  ⟨1700000000, 7, [⟨5, "10.0.0.7".toUTF8.toList, 6881⟩, ⟨6, "2001:db8::5".toUTF8.toList, 6882⟩,
    ⟨8, [], 6883⟩, ⟨9, "192.0.2.33".toUTF8.toList, 6884⟩]⟩

theorem savable_threeNodes : threeNodes.Savable Resolver.threeAddresses .AF_INET where
  length := by decide
  writes := by decide +kernel

/-- A file of version 2 with the same nodes. -/
def compatFile : Bytes :=
  headerCompat ++ octets 4 1600000000 ++ (zero 4 ++
    tableBytes Resolver.threeAddresses .AF_INET threeNodes)

theorem whole_compatFile : Whole Resolver.threeAddresses .AF_INET "dht.dat" compatFile := by
  have hrest : Decoder.Reads failedToLoad (readRest Resolver.threeAddresses .AF_INET 2)
      (zero 4 ++ tableBytes Resolver.threeAddresses .AF_INET threeNodes) _ :=
    (reads_bytes (length_zero 4)).bind (reads_readTable savable_threeNodes)
  have hwhole := hrest.whole []
  rw [List.append_nil] at hwhole
  exact ⟨2, 1600000000, _, _, rfl, hwhole⟩

/-- What had been loaded before. -/
def loadedBefore : DHTRoutingTableDeserializer :=
  ⟨1500000000, some 3, [⟨4, "10.0.0.7".toUTF8.toList, 6885⟩]⟩

/-- What is left where `n` bytes of a file are left. -/
def loadCut (file : Bytes) (n : Nat) : Except String Unit × DHTRoutingTableDeserializer :=
  deserialize Resolver.threeAddresses .AF_INET "dht.dat" (some (file.take n)) loadedBefore

/-- The load fails, and the time is that of before or of the file. -/
def RefusesCut (file : Bytes) (n : Nat) : Prop :=
  ∃ time, (time = loadedBefore.serializedTime ∨
      time = (deserialize Resolver.threeAddresses .AF_INET "dht.dat" (some file)
        loadedBefore).2.serializedTime) ∧
    loadCut file n = (.error failedToLoad, { loadedBefore with serializedTime := time })

/-- A file of version 2 has been cut in the reserved bytes behind the time and in the entry of the
second node, and the file of version 3 in its last node. -/
theorem deserialize_cut_compatFile :
    RefusesCut compatFile 14 ∧ RefusesCut compatFile 150 ∧
      (loadCut compatFile 14).2.serializedTime = 1600000000 ∧
      RefusesCut (serialize Resolver.threeAddresses .AF_INET threeNodes) 180 :=
  ⟨deserialize_cut whole_compatFile (List.take_prefix 14 compatFile) (by decide +kernel),
    deserialize_cut whole_compatFile (List.take_prefix 150 compatFile) (by decide +kernel),
    by decide +kernel,
    deserialize_cut (whole_serialize savable_threeNodes) (List.take_prefix 180 _)
      (by decide +kernel)⟩

end Reading

/-! ## Saving again and again -/

section Runs

variable {net : Resolver} {family : Family}

/-- Two tables are saved, and two attempts fail. -/
def attempts : List (Table × Attempt) :=
  [(⟨1600000000, 2, []⟩, .saved), (threeNodes, .saved), (⟨1800000000, 3, []⟩, .cut [0xa1, 0xa2]),
    (⟨1900000000, 4, []⟩, .notRenamed)]

end Runs

end FluxCore.Dht.SavedTable
