import FluxCore.Bencode.Dict
import FluxCore.Dht.Node
import FluxCore.Net.CompactAddress
import FluxCore.Torrent.Names

/-!
# DHT messages

The bytes of queries and of responses, `getBencodedMessage` of the message classes, and what
`DHTMessageFactoryImpl` makes of them. The type of a response is not in it: it is the type of the
query that it answers.
-/

namespace FluxCore.Dht.Krpc

open Utp (Bytes)
open Bencode (ValueBase Dict name encode decode)
open Bencode.BencodeParser (INT64_MAX)
open Net (Resolver Family getCompactLength)

/-! ## Messages -/

/-- The bytes of an id. -/
def bytes (id : ID) : Bytes := octets DHT_ID_LENGTH id.toNat

/-- The id of the first 20 bytes. -/
def readID (s : Bytes) : ID := .ofNat 160 (octetsValue (s.take DHT_ID_LENGTH))

structure Node where
  id : ID
  ipaddr : Bytes
  port : UInt16
  deriving DecidableEq, Repr

inductive Query where
  | ping
  | findNode (targetNodeID : ID)
  | getPeers (infoHash : ID)
  | announcePeer (infoHash : ID) (tcpPort : UInt16) (token : Bytes)
  deriving DecidableEq, Repr

inductive Response where
  | ping (id : ID)
  | findNode (closestKNodes : List Node)
  | getPeers (closestKNodes : List Node) (values : List (Bytes × UInt16)) (token : Bytes)
  | announcePeer
  deriving DecidableEq, Repr

/-- `DHTMessage`, with a query or a response. -/
structure Message (α : Type) where
  localNode : ID
  remoteNode : Node
  transactionID : Bytes
  version : Bytes
  content : α
  deriving DecidableEq, Repr

abbrev DHTQueryMessage := Message Query

abbrev DHTResponseMessage := Message Response

def Query.getMessageType : Query → String
  | .ping => "ping"
  | .findNode _ => "find_node"
  | .getPeers _ => "get_peers"
  | .announcePeer .. => "announce_peer"

def Response.getMessageType : Response → String
  | .ping _ => "ping"
  | .findNode _ => "find_node"
  | .getPeers .. => "get_peers"
  | .announcePeer => "announce_peer"

/-! ## Writing -/

/-- The members of every message. -/
def commonMembers (transactionID : Bytes) (type : String) (version : Bytes) : Dict :=
  let msgDict := Dict.put [] (name "t") (.string transactionID)
  let msgDict := msgDict.put (name "y") (.string (name type))
  msgDict.put (name "v") (.string version)

def getArgument (m : DHTQueryMessage) : Dict :=
  let aDict := Dict.put [] (name "id") (.string (bytes m.localNode))
  match m.content with
  | .ping => aDict
  | .findNode targetNodeID => aDict.put (name "target") (.string (bytes targetNodeID))
  | .getPeers infoHash => aDict.put (name "info_hash") (.string (bytes infoHash))
  | .announcePeer infoHash tcpPort token =>
    let aDict := aDict.put (name "info_hash") (.string (bytes infoHash))
    let aDict := aDict.put (name "port") (.integer tcpPort.toNat)
    aDict.put (name "token") (.string token)

def queryDict (m : DHTQueryMessage) : Dict :=
  let msgDict := commonMembers m.transactionID "q" m.version
  let msgDict := msgDict.put (name "q") (.string (name m.content.getMessageType))
  msgDict.put (name "a") (.dict (getArgument m))

/-- The member that nodes are put in. -/
def nodesKey (family : Family) : String := if family = .AF_INET then "nodes" else "nodes6"

/-- The loop over the closest nodes: those of the family, `K` of them at most. -/
def packNodes (net : Resolver) (family : Family) : Nat → List Node → Bytes
  | _, [] => []
  | k, node :: nodes =>
    if k < DHTBucket.K then
      let compact := net.packcompact node.ipaddr node.port
      if compact.length = getCompactLength family then
        bytes node.id ++ compact ++ packNodes net family (k + 1) nodes
      else packNodes net family k nodes
    else []

def MAX_VALUES_SIZE : Nat := 25

/-- The loop over the peers. -/
def packValues (net : Resolver) (family : Family) : Nat → List (Bytes × UInt16) → List ValueBase
  | _, [] => []
  | k, peer :: peers =>
    if k < MAX_VALUES_SIZE then
      let compact := net.packcompact peer.1 peer.2
      if compact.length = getCompactLength family then
        .string compact :: packValues net family (k + 1) peers
      else packValues net family k peers
    else []

/-- The nodes of a response to `get_peers`, left out if there are none. -/
def putNodes (net : Resolver) (family : Family) (rDict : Dict) (closestKNodes : List Node) :
    Dict :=
  if closestKNodes = [] then rDict
  else rDict.put (name (nodesKey family)) (.string (packNodes net family 0 closestKNodes))

def putValues (net : Resolver) (family : Family) (rDict : Dict) (values : List (Bytes × UInt16)) :
    Dict :=
  if values = [] then rDict
  else rDict.put (name "values") (.list (packValues net family 0 values))

def getResponse (net : Resolver) (family : Family) (m : DHTResponseMessage) : Dict :=
  match m.content with
  | .ping id => Dict.put [] (name "id") (.string (bytes id))
  | .findNode closestKNodes =>
    let aDict := Dict.put [] (name "id") (.string (bytes m.localNode))
    aDict.put (name (nodesKey family)) (.string (packNodes net family 0 closestKNodes))
  | .getPeers closestKNodes values token =>
    let rDict := Dict.put [] (name "id") (.string (bytes m.localNode))
    let rDict := rDict.put (name "token") (.string token)
    putValues net family (putNodes net family rDict closestKNodes) values
  | .announcePeer => Dict.put [] (name "id") (.string (bytes m.localNode))

def responseDict (net : Resolver) (family : Family) (m : DHTResponseMessage) : Dict :=
  (commonMembers m.transactionID "r" m.version).put (name "r") (.dict (getResponse net family m))

/-! ## Reading -/

/-- The text that `fmt` writes, which has a buffer of 2048 bytes. -/
def fmt (s : Bytes) : Bytes := s.take 2047

/-- The text of `c_str()`, which ends at the first NUL. -/
def cStr (s : Bytes) : Bytes := s.takeWhile (· ≠ 0)

/-- The member that `downcast` has found. -/
def require {α : Type} (key : String) : Option α → Except Bytes α
  | some v => .ok v
  | none => .error (name s!"Malformed DHT message. Missing {key}")

def getString (dict : Dict) (key : String) : Except Bytes Bytes :=
  require key (dict.getString (name key))

def getInteger (dict : Dict) (key : String) : Except Bytes Int :=
  require key (dict.getInteger (name key))

def getList (dict : Dict) (key : String) : Except Bytes (List ValueBase) :=
  require key (dict.getList (name key))

def getDictionary (dict : Dict) (key : String) : Except Bytes Dict :=
  require key (dict.getDict (name key))

def validateID (id : Bytes) : Except Bytes ID :=
  if id.length = DHT_ID_LENGTH then .ok (readID id)
  else .error (name ("Malformed DHT message. Invalid ID length." ++
    s!" Expected:{DHT_ID_LENGTH}, Actual:{id.length}"))

/-- The error of `validatePort`. -/
def invalidPort (port : Int) : Bytes := name s!"Malformed DHT message. Invalid port={port}"

def validatePort (port : Int) : Except Bytes UInt16 :=
  if 0 < port ∧ port < 65535 then .ok (.ofNat port.toNat) else .error (invalidPort port)

def setVersion (dict : Dict) : Bytes := (dict.getString (name "v")).getD []

/-- The constructor of `DHTMessage`: a message without an id of its own is given one. -/
def Message.new {α : Type} (generated : Bytes) (localNode : ID) (remoteNode : Node)
    (transactionID : Bytes) (version : Bytes) (content : α) : Message α where
  localNode
  remoteNode
  transactionID := if transactionID = [] then generated else transactionID
  version
  content

/-- The branches of `createQueryMessage`. -/
def createQuery (messageType : Bytes) (aDict : Dict) : Except Bytes Query :=
  if messageType = name "ping" then .ok .ping
  else if messageType = name "find_node" then do
    let targetNodeID ← validateID (← getString aDict "target")
    return .findNode targetNodeID
  else if messageType = name "get_peers" then do
    let infoHash ← validateID (← getString aDict "info_hash")
    return .getPeers infoHash
  else if messageType = name "announce_peer" then do
    let infoHash ← validateID (← getString aDict "info_hash")
    let port ← validatePort (← getInteger aDict "port")
    let token ← getString aDict "token"
    return .announcePeer infoHash port token
  else .error (fmt (name "Unsupported message type: " ++ cStr messageType))

def createQueryMessage (generated : Bytes) (localNode : ID) (dict : Dict) (ipaddr : Bytes)
    (port : UInt16) : Except Bytes DHTQueryMessage := do
  let messageType ← getString dict "q"
  let transactionID ← getString dict "t"
  let y ← getString dict "y"
  let aDict ← getDictionary dict "a"
  if y ≠ name "q" then .error (name "Malformed DHT message. y != q")
  let id ← validateID (← getString aDict "id")
  let query ← createQuery messageType aDict
  return .new generated localNode ⟨id, ipaddr, port⟩ transactionID (setVersion dict) query

/-- The loop of `extractNodes`, over the units. -/
def extractLoop (net : Resolver) (family : Family) : Nat → Bytes → List Node
  | 0, _ => []
  | n + 1, src =>
    let unit := getCompactLength family + 20
    let addr := net.unpackcompact family ((src.take unit).drop DHT_ID_LENGTH)
    let nodes := extractLoop net family n (src.drop unit)
    if addr.1 = [] then nodes else ⟨readID src, addr.1, addr.2⟩ :: nodes

def extractNodes (net : Resolver) (family : Family) (src : Bytes) : Except Bytes (List Node) :=
  let unit := getCompactLength family + 20
  if src.length % unit ≠ 0 then .error (name s!"Nodes length is not multiple of {unit}")
  else .ok (extractLoop net family (src.length / unit) src)

/-- The nodes of a response, which may have none. -/
def createNodes (net : Resolver) (family : Family) (rDict : Dict) : Except Bytes (List Node) :=
  match rDict.getString (name (nodesKey family)) with
  | some nodesData => extractNodes net family nodesData
  | none => .ok []

/-- The peer of an element of the values, if it is one of the family. -/
def createPeer (net : Resolver) (family : Family) : ValueBase → Option (Bytes × UInt16)
  | .string data =>
    if data.length = getCompactLength family then
      let addr := net.unpackcompact family data
      if addr.1 = [] then none else some addr
    else none
  | _ => none

/-- The branches of `createResponseMessage`. -/
def createResponse (net : Resolver) (family : Family) (messageType : String) (id : ID)
    (rDict : Dict) : Except Bytes Response :=
  if messageType = "ping" then .ok (.ping id)
  else if messageType = "find_node" then do
    let nodes ← createNodes net family rDict
    return .findNode nodes
  else if messageType = "get_peers" then do
    let nodes ← createNodes net family rDict
    let peers := ((rDict.getList (name "values")).getD []).filterMap (createPeer net family)
    let token ← getString rDict "token"
    return .getPeers nodes peers token
  else if messageType = "announce_peer" then .ok .announcePeer
  else .error (fmt (name s!"Unsupported message type: {messageType}"))

/-- The elements of an error, which are read only where they are logged. -/
def logError (logged : Bool) (e : List ValueBase) : Except Bytes Unit :=
  match logged, e with
  | true, [code, msg] =>
    match code, msg with
    | .integer _, .string _ => .ok ()
    | .integer _, _ => .error (name "Malformed DHT message. element[1] is not String.")
    | _, _ => .error (name "Malformed DHT message. element[0] is not Integer.")
  | _, _ => .ok ()

def createResponseMessage (net : Resolver) (family : Family) (logged : Bool) (generated : Bytes)
    (localNode : ID) (messageType : String) (dict : Dict) (ipaddr : Bytes) (port : UInt16) :
    Except Bytes DHTResponseMessage := do
  let transactionID ← getString dict "t"
  let y ← getString dict "y"
  if y = name "e" then
    logError logged (← getList dict "e")
    .error (name "Received Error DHT message.")
  if y ≠ name "r" then
    .error (fmt (name "Malformed DHT message. y != r: y=" ++ Torrent.percentEncode y))
  let rDict ← getDictionary dict "r"
  let id ← validateID (← getString rDict "id")
  let response ← createResponse net family messageType id rDict
  return .new generated localNode ⟨id, ipaddr, port⟩ transactionID (setVersion dict) response

/-! ## Ids and nodes -/

@[simp] theorem length_bytes (id : ID) : (bytes id).length = DHT_ID_LENGTH :=
  length_octets DHT_ID_LENGTH id.toNat

theorem readID_append (id : ID) (rest : Bytes) : readID (bytes id ++ rest) = id := by
  rw [readID, List.take_append_of_le_length (length_bytes id).ge,
    List.take_of_length_le (length_bytes id).le, bytes,
    octetsValue_octets_of_lt (by exact id.isLt)]
  exact BitVec.ofNat_toNat ..

theorem readID_bytes (id : ID) : readID (bytes id) = id :=
  List.append_nil (bytes id) ▸ readID_append id []

theorem validateID_bytes (id : ID) : validateID (bytes id) = .ok id := by
  rw [validateID, if_pos (length_bytes id), readID_bytes]

section Nodes

variable {net : Resolver} {family : Family}

/-- The address is one of the family. -/
def inFamily (net : Resolver) (family : Family) (peer : Bytes × UInt16) : Bool :=
  (net.packcompact peer.1 peer.2).length = getCompactLength family

def Node.peer (node : Node) : Bytes × UInt16 := (node.ipaddr, node.port)

/-- The nodes that are sent. -/
def sentNodes (net : Resolver) (family : Family) (nodes : List Node) : List Node :=
  (nodes.filter fun node => inFamily net family node.peer).take DHTBucket.K

/-- The peers that are sent. -/
def sentValues (net : Resolver) (family : Family) (values : List (Bytes × UInt16)) :
    List (Bytes × UInt16) :=
  (values.filter (inFamily net family)).take MAX_VALUES_SIZE

def packNode (net : Resolver) (node : Node) : Bytes :=
  bytes node.id ++ net.packcompact node.ipaddr node.port

theorem packNodes_eq (k : Nat) (nodes : List Node) :
    packNodes net family k nodes =
      ((nodes.filter fun node => inFamily net family node.peer).take (DHTBucket.K - k)).flatMap
        (packNode net) := by
  induction nodes generalizing k with
  | nil => rw [packNodes, List.filter_nil, List.take_nil, List.flatMap_nil]
  | cons node nodes ih =>
    rw [packNodes]
    split
    next hk =>
      obtain ⟨j, hj⟩ : ∃ j, DHTBucket.K - k = j + 1 := ⟨DHTBucket.K - k - 1, by omega⟩
      dsimp only
      split
      next hlen =>
        have hin : inFamily net family node.peer = true := decide_eq_true hlen
        rw [List.filter_cons, if_pos hin, hj, List.take_succ_cons, List.flatMap_cons,
          packNode, ih (k + 1), show DHTBucket.K - (k + 1) = j by omega]
      next hlen =>
        have hout : ¬inFamily net family node.peer = true := fun h => hlen (of_decide_eq_true h)
        rw [List.filter_cons, if_neg hout, ih k]
    next hk => rw [Nat.sub_eq_zero_of_le (Nat.le_of_not_lt hk), List.take_zero, List.flatMap_nil]

theorem packValues_eq (k : Nat) (values : List (Bytes × UInt16)) :
    packValues net family k values =
      ((values.filter (inFamily net family)).take (MAX_VALUES_SIZE - k)).map
        fun peer => .string (net.packcompact peer.1 peer.2) := by
  induction values generalizing k with
  | nil => rw [packValues, List.filter_nil, List.take_nil, List.map_nil]
  | cons peer values ih =>
    rw [packValues]
    split
    next hk =>
      obtain ⟨j, hj⟩ : ∃ j, MAX_VALUES_SIZE - k = j + 1 := ⟨MAX_VALUES_SIZE - k - 1, by omega⟩
      dsimp only
      split
      next hlen =>
        have hin : inFamily net family peer = true := decide_eq_true hlen
        rw [List.filter_cons, if_pos hin, hj, List.take_succ_cons, List.map_cons,
          ih (k + 1), show MAX_VALUES_SIZE - (k + 1) = j by omega]
      next hlen =>
        have hout : ¬inFamily net family peer = true := fun h => hlen (of_decide_eq_true h)
        rw [List.filter_cons, if_neg hout, ih k]
    next hk => rw [Nat.sub_eq_zero_of_le (Nat.le_of_not_lt hk), List.take_zero, List.map_nil]

theorem writes_of_inFamily {peer : Bytes × UInt16} (h : ∃ family', net.Writes family' peer.1)
    (hin : inFamily net family peer = true) : net.Writes family peer.1 := by
  obtain ⟨family', hwrites⟩ := h
  exact hwrites.eq_family (of_decide_eq_true hin) ▸ hwrites

theorem inFamily_of_mem_sentNodes {nodes : List Node} {node : Node}
    (h : node ∈ sentNodes net family nodes) :
    node ∈ nodes ∧ inFamily net family node.peer = true :=
  List.mem_filter.mp (List.mem_of_mem_take h)

theorem inFamily_of_mem_sentValues {values : List (Bytes × UInt16)} {peer : Bytes × UInt16}
    (h : peer ∈ sentValues net family values) :
    peer ∈ values ∧ inFamily net family peer = true :=
  List.mem_filter.mp (List.mem_of_mem_take h)

theorem length_packNode {node : Node} (h : inFamily net family node.peer = true) :
    (packNode net node).length = getCompactLength family + 20 := by
  rw [packNode, List.length_append, length_bytes, DHT_ID_LENGTH, Nat.add_comm,
    Nat.add_right_cancel_iff]
  exact of_decide_eq_true h

theorem length_packAll {nodes : List Node}
    (h : ∀ node ∈ nodes, inFamily net family node.peer = true) :
    (nodes.flatMap (packNode net)).length = (getCompactLength family + 20) * nodes.length := by
  induction nodes with
  | nil => rfl
  | cons node nodes ih =>
    rw [List.flatMap_cons, List.length_append, length_packNode (h node (List.mem_cons_self ..)),
      ih fun n hn => h n (List.mem_cons_of_mem _ hn), List.length_cons, Nat.mul_succ, Nat.add_comm]

/-- The nodes of a response are read one after the other. -/
theorem extractNodes_packNodes {nodes : List Node}
    (h : ∀ node ∈ nodes, ∃ family', net.Writes family' node.ipaddr) :
    extractNodes net family (packNodes net family 0 nodes) = .ok (sentNodes net family nodes) := by
  have hin : ∀ node ∈ sentNodes net family nodes, inFamily net family node.peer = true :=
    fun node hnode => (inFamily_of_mem_sentNodes hnode).2
  have hwrites : ∀ node ∈ sentNodes net family nodes, net.Writes family node.ipaddr :=
    fun node hnode => writes_of_inFamily (h node (inFamily_of_mem_sentNodes hnode).1)
      (hin node hnode)
  rw [packNodes_eq, Nat.sub_zero, ← sentNodes, extractNodes]
  generalize sentNodes net family nodes = l at hin hwrites
  rw [length_packAll hin, if_neg (by rw [Nat.mul_mod_right]; exact fun h => h rfl),
    Nat.mul_div_cancel_left _ (Nat.succ_pos _)]
  congr 1
  induction l with
  | nil => rfl
  | cons node l ih =>
    have hlen := length_packNode (hin node (List.mem_cons_self ..))
    have hnode := hwrites node (List.mem_cons_self ..)
    have hread : net.unpackcompact family
        (((packNode net node ++ l.flatMap (packNode net)).take (getCompactLength family + 20)).drop
          DHT_ID_LENGTH) = (node.ipaddr, node.port) := by
      rw [List.take_append_of_le_length hlen.ge, List.take_of_length_le hlen.le, packNode,
        ← length_bytes node.id, List.drop_left, hnode.unpackcompact]
    rw [List.length_cons, extractLoop, List.flatMap_cons, hread, ← hlen, List.drop_left,
      ih (fun n hn => hin n (List.mem_cons_of_mem _ hn))
        fun n hn => hwrites n (List.mem_cons_of_mem _ hn), packNode, List.append_assoc,
      readID_append]
    exact if_neg hnode.ne_nil

theorem filterMap_createPeer {values : List (Bytes × UInt16)}
    (h : ∀ peer ∈ values, ∃ family', net.Writes family' peer.1) :
    (packValues net family 0 values).filterMap (createPeer net family) =
      sentValues net family values := by
  have hin : ∀ peer ∈ sentValues net family values, inFamily net family peer = true :=
    fun peer hpeer => (inFamily_of_mem_sentValues hpeer).2
  have hwrites : ∀ peer ∈ sentValues net family values, net.Writes family peer.1 :=
    fun peer hpeer => writes_of_inFamily (h peer (inFamily_of_mem_sentValues hpeer).1)
      (hin peer hpeer)
  rw [packValues_eq, Nat.sub_zero, ← sentValues, List.filterMap_map]
  generalize sentValues net family values = l at hin hwrites
  induction l with
  | nil => rfl
  | cons peer l ih =>
    have hpeer := hwrites peer (List.mem_cons_self ..)
    have hread : createPeer net family (.string (net.packcompact peer.1 peer.2)) = some peer := by
      rw [createPeer, if_pos hpeer.length_packcompact, hpeer.unpackcompact]
      exact if_neg hpeer.ne_nil
    rw [List.filterMap_cons, Function.comp_apply, hread,
      ih (fun p hp => hin p (List.mem_cons_of_mem _ hp))
        fun p hp => hwrites p (List.mem_cons_of_mem _ hp)]

end Nodes

/-! ## Messages fit -/

/-- A message with the token that it carries, if any. Its own id is not empty, as the constructor
sees to. -/
structure Message.Sendable {α : Type} (m : Message α) (token : Bytes) : Prop where
  ne_nil : m.transactionID ≠ []
  transactionID : m.transactionID.length ≤ INT64_MAX
  version : m.version.length ≤ INT64_MAX
  token : token.length ≤ INT64_MAX

def Query.token : Query → Bytes
  | .announcePeer _ _ token => token
  | _ => []

def Response.token : Response → Bytes
  | .getPeers _ _ token => token
  | _ => []

/-- The keys and the short strings of the messages. -/
def keys : List String :=
  ["t", "y", "v", "q", "a", "r", "id", "target", "info_hash", "port", "token", "nodes", "nodes6",
    "values", "ping", "find_node", "get_peers", "announce_peer"]

theorem length_key : ∀ key ∈ keys, (name key).length ≤ INT64_MAX := by decide +kernel

theorem length_bytes_le (id : ID) : (bytes id).length ≤ INT64_MAX :=
  (length_bytes id).le.trans (by decide)

theorem nodesKey_mem (family : Family) : nodesKey family ∈ keys := by
  cases family <;> simp [nodesKey, keys]

section Fits

variable {α : Type} {m : Message α} {q : DHTQueryMessage} {r : DHTResponseMessage} {token : Bytes}
variable {net : Resolver} {family : Family}

theorem fits_commonMembers (h : m.Sendable token) {type : String} (htype : type ∈ keys) :
    Dict.Fits 49 (commonMembers m.transactionID type m.version) :=
  (((Dict.Fits.nil 49).putString (length_key _ (by simp [keys])) h.transactionID).putString
    (length_key _ (by simp [keys])) (length_key _ htype)).putString
    (length_key _ (by simp [keys])) h.version

theorem fits_id (n : Nat) (id : ID) :
    Dict.Fits (n + 1) (Dict.put [] (name "id") (.string (bytes id))) :=
  (Dict.Fits.nil (n + 1)).putString (length_key _ (by simp [keys])) (length_bytes_le id)

theorem fits_getArgument (h : q.Sendable q.content.token) : Dict.Fits 1 (getArgument q) := by
  have hid := fits_id 0 q.localNode
  obtain ⟨localNode, remoteNode, transactionID, version, content⟩ := q
  cases content with
  | ping => exact hid
  | findNode targetNodeID =>
    exact hid.putString (length_key _ (by simp [keys])) (length_bytes_le _)
  | getPeers infoHash =>
    exact hid.putString (length_key _ (by simp [keys])) (length_bytes_le _)
  | announcePeer infoHash tcpPort token =>
    have hport : (tcpPort.toNat : Int) ≤ INT64_MAX := by
      have := tcpPort.toNat_lt
      have hmax : INT64_MAX = 9223372036854775807 := rfl
      omega
    exact ((hid.putString (length_key _ (by simp [keys])) (length_bytes_le _)).putInteger
      (length_key _ (by simp [keys])) ⟨by omega, hport⟩).putString
      (length_key _ (by simp [keys])) h.token

theorem fits_queryDict (h : q.Sendable q.content.token) : Dict.Fits 49 (queryDict q) := by
  have htype : q.content.getMessageType ∈ keys := by
    cases q.content <;> simp [Query.getMessageType, keys]
  exact ((fits_commonMembers h (by simp [keys])).putString (length_key _ (by simp [keys]))
    (length_key _ htype)).putDict (length_key _ (by simp [keys]))
    ((fits_getArgument h).mono (by decide))

theorem length_packNodes_le (nodes : List Node) :
    (packNodes net family 0 nodes).length ≤ INT64_MAX := by
  have hin : ∀ node ∈ sentNodes net family nodes, inFamily net family node.peer = true :=
    fun node hnode => (inFamily_of_mem_sentNodes hnode).2
  have hK : (sentNodes net family nodes).length ≤ DHTBucket.K := List.length_take_le ..
  rw [packNodes_eq, Nat.sub_zero, ← sentNodes, length_packAll hin]
  have hunit : getCompactLength family + 20 ≤ 38 := by cases family <;> decide
  exact (Nat.mul_le_mul hunit hK).trans (by decide)

theorem fits_putNodes {d : Dict} (h : Dict.Fits 2 d) (nodes : List Node) :
    Dict.Fits 2 (putNodes net family d nodes) := by
  rw [putNodes]
  split
  · exact h
  · exact h.putString (length_key _ (nodesKey_mem family)) (length_packNodes_le nodes)

theorem fits_putValues {d : Dict} (h : Dict.Fits 2 d) (values : List (Bytes × UInt16)) :
    Dict.Fits 2 (putValues net family d values) := by
  rw [putValues]
  split
  · exact h
  · have hpack : packValues net family 0 values =
        ((sentValues net family values).map fun peer => net.packcompact peer.1 peer.2).map
          .string := by
      rw [packValues_eq, Nat.sub_zero, ← sentValues, List.map_map]
      rfl
    rw [hpack]
    refine h.putStrings (length_key _ (by simp [keys])) fun s hs => ?_
    obtain ⟨peer, hpeer, rfl⟩ := List.mem_map.mp hs
    rw [of_decide_eq_true (inFamily_of_mem_sentValues hpeer).2]
    cases family <;> decide

theorem fits_getResponse (h : r.Sendable r.content.token) :
    Dict.Fits 2 (getResponse net family r) := by
  have hid := fits_id 1
  obtain ⟨localNode, remoteNode, transactionID, version, content⟩ := r
  cases content with
  | ping id => exact hid id
  | findNode closestKNodes =>
    exact (hid localNode).putString (length_key _ (nodesKey_mem family))
      (length_packNodes_le closestKNodes)
  | getPeers closestKNodes values token =>
    have htoken := (hid localNode).putString (length_key "token" (by simp [keys])) h.token
    exact fits_putValues (fits_putNodes htoken closestKNodes) values
  | announcePeer => exact hid localNode

theorem fits_responseDict (h : r.Sendable r.content.token) :
    Dict.Fits 49 (responseDict net family r) :=
  (fits_commonMembers h (by simp [keys])).putDict (length_key _ (by simp [keys]))
    ((fits_getResponse h).mono (by decide))

end Fits

/-! ## What is sent is read -/

section Reading

variable {net : Resolver} {family : Family}

/-- The port that `validatePort` refuses, if it is the one of the message. -/
def Query.refusedPort : Query → Option UInt16
  | .announcePeer _ tcpPort _ => if tcpPort = 0 ∨ tcpPort = 65535 then some tcpPort else none
  | _ => none

theorem validatePort_toNat (port : UInt16) : validatePort port.toNat =
    if port = 0 ∨ port = 65535 then .error (invalidPort port.toNat) else .ok port := by
  have hlt := port.toNat_lt
  have hzero : port = 0 ↔ port.toNat = 0 := UInt16.toNat_inj.symm
  have hmax : port = 65535 ↔ port.toNat = 65535 := UInt16.toNat_inj.symm
  rw [validatePort]
  by_cases h : port = 0 ∨ port = 65535
  · rw [if_pos h, if_neg (by rw [hzero, hmax] at h; omega)]
  · rw [if_neg h, if_pos (by rw [hzero, hmax] at h; omega), Int.toNat_natCast, UInt16.ofNat_toNat]

theorem read_queryDict (m : DHTQueryMessage) :
    getString (queryDict m) "q" = .ok (name m.content.getMessageType) ∧
      getString (queryDict m) "t" = .ok m.transactionID ∧
      getString (queryDict m) "y" = .ok (name "q") ∧
      getDictionary (queryDict m) "a" = .ok (getArgument m) ∧
      setVersion (queryDict m) = m.version := by
  refine ⟨?_, ?_, ?_, ?_, ?_⟩ <;>
    simp only [queryDict, commonMembers, getString, getDictionary, setVersion, Dict.getString,
      Dict.getDict, Dict.get_put_name, String.reduceEq, if_true, if_false, require,
      Option.getD_some]

theorem read_responseDict (m : DHTResponseMessage) :
    getString (responseDict net family m) "t" = .ok m.transactionID ∧
      getString (responseDict net family m) "y" = .ok (name "r") ∧
      getDictionary (responseDict net family m) "r" = .ok (getResponse net family m) ∧
      setVersion (responseDict net family m) = m.version := by
  refine ⟨?_, ?_, ?_, ?_⟩ <;>
    simp only [responseDict, commonMembers, getString, getDictionary, setVersion, Dict.getString,
      Dict.getDict, Dict.get_put_name, String.reduceEq, if_true, if_false, require,
      Option.getD_some]

theorem getString_getArgument (m : DHTQueryMessage) :
    getString (getArgument m) "id" = .ok (bytes m.localNode) := by
  rw [getArgument]
  cases m.content <;>
    simp only [getString, Dict.getString, Dict.get_put_name, String.reduceEq, if_true, if_false,
      require]

theorem createQuery_getArgument (m : DHTQueryMessage) :
    createQuery (name m.content.getMessageType) (getArgument m) =
      match m.content.refusedPort with
      | some port => .error (invalidPort port.toNat)
      | none => .ok m.content := by
  obtain ⟨localNode, remoteNode, transactionID, version, content⟩ := m
  cases content with
  | ping => simp only [createQuery, Query.getMessageType, if_true, Query.refusedPort]
  | findNode targetNodeID =>
    simp only [createQuery, Query.getMessageType, Bencode.name_inj, String.reduceEq, if_true,
      if_false, getArgument, getString, Dict.getString, Dict.get_put_name, require, bind,
      Except.bind, validateID_bytes, Query.refusedPort, pure, Except.pure]
  | getPeers infoHash =>
    simp only [createQuery, Query.getMessageType, Bencode.name_inj, String.reduceEq, if_true,
      if_false, getArgument, getString, Dict.getString, Dict.get_put_name, require, bind,
      Except.bind, validateID_bytes, Query.refusedPort, pure, Except.pure]
  | announcePeer infoHash tcpPort token =>
    simp only [createQuery, Query.getMessageType, Bencode.name_inj, String.reduceEq, if_true,
      if_false, getArgument, getString, getInteger, Dict.getString, Dict.getInteger,
      Dict.get_put_name, require, bind, Except.bind, validateID_bytes, validatePort_toNat,
      Query.refusedPort, pure, Except.pure]
    by_cases h : tcpPort = 0 ∨ tcpPort = 65535
    · rw [if_pos h, if_pos h]
    · rw [if_neg h, if_neg h]

theorem nodesKey_ne (family : Family) (key : String) (h : key ≠ "nodes" ∧ key ≠ "nodes6") :
    key ≠ nodesKey family := by
  rw [nodesKey]
  split
  · exact h.1
  · exact h.2

theorem get_putNodes {d : Dict} {nodes : List Node} {key : String}
    (h : key ≠ "nodes" ∧ key ≠ "nodes6") :
    Dict.get (putNodes net family d nodes) (name key) = Dict.get d (name key) := by
  rw [putNodes]
  split
  · rfl
  · rw [Dict.get_put_name, if_neg (nodesKey_ne family key h)]

theorem get_putValues {d : Dict} {values : List (Bytes × UInt16)} {key : String}
    (h : key ≠ "values") :
    Dict.get (putValues net family d values) (name key) = Dict.get d (name key) := by
  rw [putValues]
  split
  · rfl
  · rw [Dict.get_put_name, if_neg h]

theorem createNodes_of_get {nodes : List Node} {d : Dict}
    (h : ∀ node ∈ nodes, ∃ family', net.Writes family' node.ipaddr)
    (hd : d.get (name (nodesKey family)) = some (.string (packNodes net family 0 nodes))) :
    createNodes net family d = .ok (sentNodes net family nodes) := by
  rw [createNodes, Dict.getString, hd]
  exact extractNodes_packNodes h

theorem createNodes_putNodes {nodes : List Node} {d : Dict}
    (h : ∀ node ∈ nodes, ∃ family', net.Writes family' node.ipaddr)
    (hd : d.get (name (nodesKey family)) = none) {values : List (Bytes × UInt16)} :
    createNodes net family (putValues net family (putNodes net family d nodes) values) =
      .ok (sentNodes net family nodes) := by
  have hvalues : nodesKey family ≠ "values" := by cases family <;> simp [nodesKey]
  by_cases hnil : nodes = []
  · rw [createNodes, Dict.getString, get_putValues hvalues, putNodes, if_pos hnil, hd, hnil]
    rfl
  · refine createNodes_of_get h ?_
    rw [get_putValues hvalues, putNodes, if_neg hnil, Dict.get_put_name, if_pos rfl]

theorem createPeer_putValues {values : List (Bytes × UInt16)} {d : Dict}
    (h : ∀ peer ∈ values, ∃ family', net.Writes family' peer.1)
    (hd : d.get (name "values") = none) :
    (((putValues net family d values).getList (name "values")).getD []).filterMap
        (createPeer net family) = sentValues net family values := by
  rw [Dict.getList, putValues]
  by_cases hnil : values = []
  · rw [if_pos hnil, hd, hnil]
    rfl
  · rw [if_neg hnil, Dict.get_put_name, if_pos rfl]
    exact filterMap_createPeer h

/-- The id that a response is sent with. -/
def senderID (m : DHTResponseMessage) : ID :=
  match m.content with
  | .ping id => id
  | _ => m.localNode

/-- What of a response is sent to a node of the family. -/
def Response.sent (net : Resolver) (family : Family) : Response → Response
  | .findNode closestKNodes => .findNode (sentNodes net family closestKNodes)
  | .getPeers closestKNodes values token =>
    .getPeers (sentNodes net family closestKNodes) (sentValues net family values) token
  | r => r

/-- The addresses that a response tells of. -/
def Response.addresses : Response → List Bytes
  | .findNode closestKNodes => closestKNodes.map (·.ipaddr)
  | .getPeers closestKNodes values _ => closestKNodes.map (·.ipaddr) ++ values.map (·.1)
  | _ => []

theorem getString_getResponse (m : DHTResponseMessage) :
    getString (getResponse net family m) "id" = .ok (bytes (senderID m)) := by
  obtain ⟨localNode, remoteNode, transactionID, version, content⟩ := m
  have hkey : "id" ≠ nodesKey family := nodesKey_ne family "id" (by simp)
  cases content with
  | ping id => simp only [getResponse, getString, Dict.getString, Dict.get_put_name, if_true,
      require, senderID]
  | findNode closestKNodes =>
    simp only [getResponse, getString, Dict.getString, Dict.get_put_name, if_true, hkey, if_false,
      require, senderID]
  | getPeers closestKNodes values token =>
    rw [getResponse, getString, Dict.getString, get_putValues (by simp), get_putNodes (by simp)]
    simp only [Dict.get_put_name, String.reduceEq, if_true, if_false, require, senderID]
  | announcePeer => simp only [getResponse, getString, Dict.getString, Dict.get_put_name, if_true,
      require, senderID]

theorem createResponse_getResponse (m : DHTResponseMessage)
    (h : ∀ ipaddr ∈ m.content.addresses, ∃ family', net.Writes family' ipaddr) :
    createResponse net family m.content.getMessageType (senderID m) (getResponse net family m) =
      .ok (m.content.sent net family) := by
  obtain ⟨localNode, remoteNode, transactionID, version, content⟩ := m
  cases content with
  | ping id => rfl
  | findNode closestKNodes =>
    let aDict := Dict.put [] (name "id") (.string (bytes localNode))
    have hnodes : createNodes net family
        (aDict.put (name (nodesKey family)) (.string (packNodes net family 0 closestKNodes))) =
          .ok (sentNodes net family closestKNodes) :=
      createNodes_of_get (fun node hnode => h _ (List.mem_map_of_mem hnode)) (by
        rw [Dict.get_put_name, if_pos rfl])
    simp only [createResponse, Response.getMessageType, String.reduceEq, if_true, if_false,
      getResponse, aDict, hnodes, bind, Except.bind, pure, Except.pure, Response.sent]
  | getPeers closestKNodes values token =>
    obtain ⟨rDict, hrDict⟩ : ∃ rDict, rDict =
        (Dict.put [] (name "id") (.string (bytes localNode))).put (name "token") (.string token) :=
      ⟨_, rfl⟩
    obtain ⟨dict, hdict⟩ : ∃ dict, dict =
        putValues net family (putNodes net family rDict closestKNodes) values := ⟨_, rfl⟩
    have hresponse : getResponse net family
        ⟨localNode, remoteNode, transactionID, version, .getPeers closestKNodes values token⟩ =
          dict := by rw [getResponse, hdict, hrDict]
    have hother : ∀ key : String, key ≠ "id" → key ≠ "token" → rDict.get (name key) = none :=
      fun key hid htoken => by
        rw [hrDict, Dict.get_put_name, if_neg htoken, Dict.get_put_name, if_neg hid]
        rfl
    have hnodes : createNodes net family dict = .ok (sentNodes net family closestKNodes) := by
      rw [hdict]
      exact createNodes_putNodes
        (fun node hnode => h _ (List.mem_append_left _ (List.mem_map_of_mem hnode)))
        (hother _ (nodesKey_ne family "id" (by simp)).symm
          (nodesKey_ne family "token" (by simp)).symm)
    have hpeers : ((dict.getList (name "values")).getD []).filterMap (createPeer net family) =
        sentValues net family values := by
      rw [hdict]
      exact createPeer_putValues
        (fun peer hpeer => h _ (List.mem_append_right _ (List.mem_map_of_mem hpeer)))
        ((get_putNodes (by simp)).trans (hother "values" (by simp) (by simp)))
    have htoken : getString dict "token" = .ok token := by
      rw [hdict, getString, Dict.getString, get_putValues (by simp), get_putNodes (by simp),
        hrDict, Dict.get_put_name, if_pos rfl, require]
    rw [hresponse]
    simp only [createResponse, Response.getMessageType, String.reduceEq, if_true, if_false,
      hnodes, hpeers, htoken, bind, Except.bind, pure, Except.pure, Response.sent]
  | announcePeer => rfl

/-- A query is decoded as it was encoded, and is created again from the dictionary under the id of
its sender, except that port 65535 is refused as port 0 is. -/
theorem createQueryMessage_queryDict (m : DHTQueryMessage)
    (h : m.Sendable m.content.token) (generated : Bytes) (localNode : ID) (ipaddr : Bytes)
    (port : UInt16) :
    decode (encode (.dict (queryDict m))) =
        some (.ok ((encode (.dict (queryDict m))).length, some (.dict (queryDict m)))) ∧
      createQueryMessage generated localNode (queryDict m) ipaddr port =
        match m.content.refusedPort with
        | some tcpPort => .error (invalidPort tcpPort.toNat)
        | none => .ok { m with localNode, remoteNode := ⟨m.localNode, ipaddr, port⟩ } := by
  refine ⟨(fits_queryDict h).decode, ?_⟩
  obtain ⟨hq, ht, hy, ha, hv⟩ := read_queryDict m
  simp only [createQueryMessage, hq, ht, hy, ha, hv, getString_getArgument, validateID_bytes,
    createQuery_getArgument, bind, Except.bind, ne_eq, not_true, if_false, pure, Except.pure]
  cases m.content.refusedPort with
  | some tcpPort => rfl
  | none => simp only [Message.new, if_neg h.ne_nil]

/-- A query with a token and a port. -/
def announce : DHTQueryMessage where
  localNode := 3
  remoteNode := ⟨5, [], 0⟩
  transactionID := [0, 1, 2, 3]
  version := [0x41, 0x32, 0, 3]
  content := .announcePeer 7 6881 [0xaa]

theorem createQueryMessage_announce :
    decode (encode (.dict (queryDict announce))) = some (.ok
        ((encode (.dict (queryDict announce))).length, some (.dict (queryDict announce)))) ∧
      createQueryMessage [9, 9, 9, 9] 5 (queryDict announce) [] 6882 =
        match announce.content.refusedPort with
        | some tcpPort => .error (invalidPort tcpPort.toNat)
        | none => .ok { announce with
          localNode := 5, remoteNode := ⟨announce.localNode, [], 6882⟩ } :=
  createQueryMessage_queryDict announce
    { ne_nil := by decide
      transactionID := by decide
      version := by decide
      token := by decide } [9, 9, 9, 9] 5 [] 6882

/-- A response is decoded as it was encoded, and under the type of its query it is created again
from the dictionary, with the first nodes and peers of the family. -/
theorem createResponseMessage_responseDict (m : DHTResponseMessage)
    (h : m.Sendable m.content.token)
    (haddr : ∀ ipaddr ∈ m.content.addresses, ∃ family', net.Writes family' ipaddr)
    (logged : Bool) (generated : Bytes) (localNode : ID) (ipaddr : Bytes) (port : UInt16) :
    let dict := responseDict net family m
    decode (encode (.dict dict)) =
        some (.ok ((encode (.dict dict)).length, some (.dict dict))) ∧
      createResponseMessage net family logged generated localNode m.content.getMessageType dict
        ipaddr port = .ok {
          localNode
          remoteNode := ⟨senderID m, ipaddr, port⟩
          transactionID := m.transactionID
          version := m.version
          content := m.content.sent net family } := by
  refine ⟨(fits_responseDict h).decode, ?_⟩
  obtain ⟨ht, hy, hr, hv⟩ := @read_responseDict net family m
  have hne : name "r" ≠ name "e" := by simp [Bencode.name_inj]
  simp only [createResponseMessage, ht, hy, hr, hv, getString_getResponse, validateID_bytes,
    createResponse_getResponse m haddr, bind, Except.bind, ne_eq, not_true, if_false, hne, pure,
    Except.pure, Message.new, if_neg h.ne_nil]

/-- A response with nodes of both families and a peer. -/
def found : DHTResponseMessage where
  localNode := 3
  remoteNode := ⟨5, [], 0⟩
  transactionID := [0, 1, 2, 3]
  version := [0x41, 0x32, 0, 3]
  content := .getPeers
    [⟨7, name "10.0.0.7", 6881⟩, ⟨8, name "2001:db8::5", 6882⟩, ⟨9, name "192.0.2.33", 6883⟩]
    [(name "192.0.2.33", 6884)] [0xaa]

theorem createResponseMessage_found :
    let net := Resolver.threeAddresses
    let dict := responseDict net .AF_INET found
    decode (encode (.dict dict)) =
        some (.ok ((encode (.dict dict)).length, some (.dict dict))) ∧
      createResponseMessage net .AF_INET true [9, 9, 9, 9] 5 found.content.getMessageType dict
        [] 6882 = .ok {
          localNode := 5
          remoteNode := ⟨senderID found, [], 6882⟩
          transactionID := found.transactionID
          version := found.version
          content := found.content.sent net .AF_INET } ∧
      found.content.sent net .AF_INET = .getPeers
        [⟨7, name "10.0.0.7", 6881⟩, ⟨9, name "192.0.2.33", 6883⟩]
        [(name "192.0.2.33", 6884)] [0xaa] := by
  have haddr : ∀ ipaddr ∈ found.content.addresses,
      ∃ family', Resolver.threeAddresses.Writes family' ipaddr := by
    have h : ∀ ipaddr ∈ found.content.addresses,
        Resolver.threeAddresses.Writes .AF_INET ipaddr ∨
          Resolver.threeAddresses.Writes .AF_INET6 ipaddr := by decide +kernel
    exact fun ipaddr hi => (h ipaddr hi).elim (fun h => ⟨_, h⟩) fun h => ⟨_, h⟩
  have hsendable : found.Sendable found.content.token :=
    { ne_nil := by decide
      transactionID := by decide
      version := by decide
      token := by decide }
  refine and_assoc.mp ⟨?_, by decide +kernel⟩
  exact createResponseMessage_responseDict found hsendable haddr true [9, 9, 9, 9] 5 [] 6882

end Reading

end FluxCore.Dht.Krpc
