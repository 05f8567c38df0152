import FluxCore.Bencode.Pieces
import FluxCore.Metadata.Download

/-!
# Requests for metadata

The `ut_metadata` messages. A request names a piece by a number that the peer chooses, and the
product of the number and the size of a piece is taken modulo `2^64` before it is compared with the
size of the metadata. `answered_iff` says which requests are answered with the piece they name.
-/

namespace FluxCore.Metadata

open Bencode (ValueBase Dict BencodeError name encode decode)
open Bencode.BencodeParser (INT64_MAX)

/-! ## The messages -/

inductive UTMetadataExtensionMessage where
  | request (index : UInt64)
  | data (index totalSize : UInt64) (data : Bytes)
  | reject (index : UInt64)
  deriving DecidableEq, Repr

/-- The bytes of a handshake and of `ut_pex` are read by the `create` function of the message. -/
inductive ExtensionMessage where
  | handshake (data : Bytes)
  | utPex (data : Bytes)
  | utMetadata (extensionMessageID : UInt8) (m : UTMetadataExtensionMessage)
  deriving DecidableEq, Repr

/-- `Integer::g` of a `size_t`. -/
def Integer.g (n : UInt64) : ValueBase := .integer n.toInt64.toInt

namespace UTMetadataExtensionMessage

def getPayload : UTMetadataExtensionMessage → Bytes
  | .request index =>
    let dict := Dict.put [] (name "msg_type") (Integer.g 0)
    let dict := dict.put (name "piece") (Integer.g index)
    encode (.dict dict)
  | .data index totalSize data_ =>
    let dict := Dict.put [] (name "msg_type") (Integer.g 1)
    let dict := dict.put (name "piece") (Integer.g index)
    let dict := dict.put (name "total_size") (Integer.g totalSize)
    encode (.dict dict) ++ data_
  | .reject index =>
    let dict := Dict.put [] (name "msg_type") (Integer.g 2)
    let dict := dict.put (name "piece") (Integer.g index)
    encode (.dict dict)

end UTMetadataExtensionMessage

/-- `extensions_`: the message ID of each extension, 0 for none. -/
structure ExtensionMessageRegistry where
  utMetadata : Int := 0
  utPex : Int := 0

def ExtensionMessageRegistry.getExtensionName (r : ExtensionMessageRegistry) (id : UInt8) :
    Option String :=
  if id = 0 then none
  else if r.utMetadata = id.toNat then some "ut_metadata"
  else if r.utPex = id.toNat then some "ut_pex"
  else none

/-! ## The answer to a request -/

/-- `std::string(begin, end)` of two positions in `s`. -/
def substring (s : Bytes) (first last : UInt64) : Bytes := (s.take last.toNat).drop first.toNat

/-- `UTMetadataRequestExtensionMessage::doReceivedAction`: the message that is queued. `id` is the
ID under which the peer takes `ut_metadata` messages. -/
def doReceivedAction (metadata : Bytes) (metadataSize : UInt64) (id : UInt8) (index : UInt64) :
    Except String ExtensionMessage :=
  let pieceSize := UInt64.ofNat METADATA_PIECE_SIZE
  if metadata.isEmpty then .ok (.utMetadata id (.reject index))
  else if index * pieceSize < metadataSize then
    let first := index * pieceSize
    let last :=
      if (index + 1) * pieceSize ≤ .ofNat metadata.length then (index + 1) * pieceSize
      else .ofNat metadata.length
    .ok (.utMetadata id (.data index metadataSize (substring metadata first last)))
  else .error s!"Metadata piece index is too big. piece={index}"

/-! ## The message factory -/

/-- The number of an error of the parser. -/
def errorCode : BencodeError → Int
  | .unexpectedCharBeforeVal => -1
  | .invalidNumber => -2
  | .numberOutOfRange => -3
  | .prematureData => -4
  | .structureTooDeep => -5
  | .invalidStringLength => -6
  | .stringLengthOutOfRange => -7
  | .invalidFloatNumber => -8

/-- `createMessage` for `ut_metadata`, of the value that was decoded and the bytes behind it. -/
def createUTMetadata (id : UInt8) (decoded : Option ValueBase) (rest : Bytes) (atEnd : Bool) :
    Except String ExtensionMessage :=
  match decoded with
  | some (.dict dict) =>
    match Dict.getInteger dict (name "msg_type") with
    | none => .error "Bad ut_metadata: msg_type not found"
    | some msgType =>
      match Dict.getInteger dict (name "piece") with
      | none => .error "Bad ut_metadata: piece not found"
      | some index =>
        if index < 0 then .error "Bad ut_metadata: piece not found"
        else if msgType = 0 then .ok (.utMetadata id (.request (.ofInt index)))
        else if msgType = 1 then
          if atEnd then .error "Bad ut_metadata data: data not found"
          else
            match Dict.getInteger dict (name "total_size") with
            | none => .error "Bad ut_metadata data: total_size not found"
            | some totalSize =>
              if totalSize < 0 then .error "Bad ut_metadata data: total_size not found"
              else .ok (.utMetadata id (.data (.ofInt index) (.ofInt totalSize) rest))
        else if msgType = 2 then .ok (.utMetadata id (.reject (.ofInt index)))
        else .error s!"Bad ut_metadata: unknown msg_type={msgType}"
  | _ => .error "Bad ut_metadata: dictionary not found"

/-- `DefaultExtensionMessageFactory::createMessage`; `none` where the parser has no result. The
position at which the dictionary ends counts from behind the ID and is compared with the length
from the ID on. -/
def createMessage (registry : ExtensionMessageRegistry) (extensionMessageID : UInt8)
    (data : Bytes) : Option (Except String ExtensionMessage) :=
  if extensionMessageID = 0 then some (.ok (.handshake (extensionMessageID :: data)))
  else
    match registry.getExtensionName extensionMessageID with
    | none => some (.error
        s!"No extension registered for extended message ID {extensionMessageID}")
    | some extensionName =>
      if extensionName = "ut_pex" then some (.ok (.utPex (extensionMessageID :: data)))
      else if extensionName = "ut_metadata" then
        match decode data with
        | none => none
        | some (.error e) => some (.error s!"Bencode decoding failed: error={errorCode e}")
        | some (.ok (last, decoded)) =>
          some (createUTMetadata extensionMessageID decoded (data.drop last)
            (last = data.length + 1))
      else some (.error ("Unsupported extension message received." ++
        s!" extensionMessageID={extensionMessageID}, extensionName={extensionName}"))

/-! ## What is sent is read -/

theorem toInt_toInt64 {n : UInt64} (h : n.toNat < 2 ^ 63) : n.toInt64.toInt = n.toNat :=
  BitVec.toInt_eq_toNat_of_lt (x := n.toBitVec) (by rw [UInt64.toNat_toBitVec]; omega)

/-- The members of a `ut_metadata` data message. -/
def dataMembers (index totalSize : UInt64) : Dict :=
  [(name "msg_type", Integer.g 1), (name "piece", Integer.g index),
    (name "total_size", Integer.g totalSize)]

theorem sorted_names : name "msg_type" < name "piece" ∧ name "msg_type" < name "total_size" ∧
    name "piece" < name "total_size" := by
  decide +kernel

theorem sorted_dataMembers (index totalSize : UInt64) :
    Dict.Sorted (dataMembers index totalSize) := by
  obtain ⟨h1, h2, h3⟩ := sorted_names
  simp [Dict.Sorted, dataMembers, h1, h2, h3]

theorem getPayload_data (index totalSize : UInt64) (rest : Bytes) :
    (UTMetadataExtensionMessage.data index totalSize rest).getPayload =
      encode (.dict (dataMembers index totalSize)) ++ rest := by
  have hsorted : Dict.Sorted ([] ++ dataMembers index totalSize) := sorted_dataMembers ..
  exact congrArg (fun d => encode (.dict d) ++ rest) hsorted.foldl_put

theorem ofInt_toNat (n : UInt64) : UInt64.ofInt n.toNat = n := by
  apply UInt64.toNat_inj.mp
  rw [UInt64.ofInt, UInt64.toNat_ofNat']
  have := n.toNat_lt
  omega

theorem representable_g {n : UInt64} (h : n.toNat < 2 ^ 63) :
    Bencode.Representable 0 (Integer.g n) := by
  rw [Integer.g, toInt_toInt64 h]
  exact ⟨Int.natCast_nonneg _, by unfold INT64_MAX; omega⟩

variable {index totalSize : UInt64} (hindex : index.toNat < 2 ^ 63)
  (htotal : totalSize.toNat < 2 ^ 63)

include hindex htotal

theorem decode_data (rest : Bytes) :
    decode (encode (.dict (dataMembers index totalSize)) ++ rest) =
      some (.ok ((encode (.dict (dataMembers index totalSize))).length,
        some (.dict (dataMembers index totalSize)))) := by
  have hlength : ∀ key ∈ [name "msg_type", name "piece", name "total_size"],
      key.length ≤ INT64_MAX := by decide +kernel
  have hone : Bencode.Representable 0 (Integer.g 1) := representable_g (by decide)
  have hdenotes : Bencode.Denotes 0 49 (encode (.dict (dataMembers index totalSize)))
      (.dict (dataMembers index totalSize)) :=
    Bencode.denotes_encode
      ⟨⟨sorted_dataMembers .., fun a ha => hlength a.1 (List.mem_map_of_mem ha)⟩, hone,
        representable_g hindex, representable_g htotal, trivial⟩ (Nat.le_of_ble_eq_true rfl)
  exact Bencode.decode_of_denotes (by decide) hdenotes rest

theorem getInteger_dataMembers :
    Dict.getInteger (dataMembers index totalSize) (name "msg_type") = some 1 ∧
      Dict.getInteger (dataMembers index totalSize) (name "piece") = some (index.toNat : Int) ∧
      Dict.getInteger (dataMembers index totalSize) (name "total_size") =
        some (totalSize.toNat : Int) := by
  obtain ⟨h1, h2, h3⟩ : (name "piece" == name "msg_type") = false ∧
      (name "total_size" == name "msg_type") = false ∧
      (name "total_size" == name "piece") = false := by decide +kernel
  have hone : (1 : UInt64).toInt64.toInt = 1 := toInt_toInt64 (n := 1) (by decide)
  simp only [Dict.getInteger, Dict.get, dataMembers, List.lookup_cons, beq_self_eq_true, h1, h2, h3,
    Integer.g, toInt_toInt64 hindex, toInt_toInt64 htotal, hone, and_self]

/-- A data message is read as it was sent. -/
theorem createMessage_data {registry : ExtensionMessageRegistry} {id : UInt8}
    (hname : registry.getExtensionName id = some "ut_metadata") (rest : Bytes) :
    createMessage registry id (UTMetadataExtensionMessage.data index totalSize rest).getPayload =
      some (.ok (.utMetadata id (.data index totalSize rest))) := by
  have hid : id ≠ 0 := by
    rintro rfl
    cases hname
  rw [getPayload_data, createMessage, if_neg hid, hname]
  dsimp only
  rw [if_neg (by decide), if_pos rfl, decode_data hindex htotal]
  dsimp only
  rw [List.drop_left, createUTMetadata]
  have hat : ¬decide ((encode (.dict (dataMembers index totalSize))).length =
      (encode (.dict (dataMembers index totalSize)) ++ rest).length + 1) = true := by
    rw [decide_eq_true_iff, List.length_append]
    omega
  obtain ⟨htype, hpiece, hsize⟩ := getInteger_dataMembers hindex htotal
  have hnat (n : UInt64) : ¬(n.toNat : Int) < 0 := by omega
  rw [htype, hpiece, hsize]
  dsimp only
  rw [if_neg (hnat _), if_neg (by decide), if_pos (by decide), if_neg hat, if_neg (hnat _),
    ofInt_toNat, ofInt_toNat]

omit hindex htotal

/-! ## Which requests are answered -/

/-- The bytes of a piece. -/
def piece (m : Bytes) (index : Nat) : Bytes :=
  (m.take (METADATA_PIECE_SIZE * (index + 1))).drop (METADATA_PIECE_SIZE * index)

/-- The request is refused, or it is answered with the bytes of the piece that it names, of which
there are some, and whoever takes `ut_metadata` messages under this ID reads the answer as it was
sent. -/
def Answered (m : Bytes) (id : UInt8) (index : Nat) : Prop :=
  match doReceivedAction m (.ofNat m.length) id (.ofNat index) with
  | .error _ => True
  | .ok message =>
    let answer := UTMetadataExtensionMessage.data (.ofNat index) (.ofNat m.length) (piece m index)
    message = .utMetadata id answer ∧ piece m index ≠ [] ∧
      ∀ registry : ExtensionMessageRegistry, registry.getExtensionName id = some "ut_metadata" →
        createMessage registry id answer.getPayload = some (.ok message)

/-- The position at which the code looks for the piece. -/
def position (index : Nat) : Nat := METADATA_PIECE_SIZE * index % 2 ^ 64

section

variable (index : Nat)

theorem doReceivedAction_nil (id : UInt8) : doReceivedAction [] (.ofNat 0) id (.ofNat index) =
    .ok (.utMetadata id (.reject (.ofNat index))) := rfl

theorem toNat_ofNat_of_lt {n : Nat} (h : n < 2 ^ 63) : (UInt64.ofNat n).toNat = n :=
  UInt64.toNat_ofNat_of_lt' (h.trans (by decide))

theorem toNat_first : (UInt64.ofNat index * .ofNat METADATA_PIECE_SIZE).toNat = position index := by
  rw [UInt64.toNat_mul, UInt64.toNat_ofNat', UInt64.toNat_ofNat', position, ← Nat.mul_mod,
    Nat.mul_comm]

theorem toNat_last (h : position index < 2 ^ 63) :
    ((UInt64.ofNat index + 1) * .ofNat METADATA_PIECE_SIZE).toNat =
      position index + METADATA_PIECE_SIZE := by
  have hsucc : (UInt64.ofNat index + 1) * .ofNat METADATA_PIECE_SIZE =
      UInt64.ofNat index * .ofNat METADATA_PIECE_SIZE + .ofNat METADATA_PIECE_SIZE := by
    rw [UInt64.add_mul, UInt64.one_mul]
  have hsize : METADATA_PIECE_SIZE < 2 ^ 63 := by decide
  rw [hsucc, UInt64.toNat_add, toNat_first, toNat_ofNat_of_lt hsize, Nat.mod_eq_of_lt]
  omega

variable {m : Bytes} (hm : m.length < 2 ^ 63) (id : UInt8)

include hm

theorem doReceivedAction_inside (hne : m ≠ []) (h : position index < m.length) :
    doReceivedAction m (.ofNat m.length) id (.ofNat index) =
      .ok (.utMetadata id (.data (.ofNat index) (.ofNat m.length)
        ((m.take (position index + METADATA_PIECE_SIZE)).drop (position index)))) := by
  have hfirst := toNat_first index
  have hlast := toNat_last index (h.trans hm)
  have hsize := toNat_ofNat_of_lt hm
  have hempty : ¬m.isEmpty = true := by rwa [List.isEmpty_iff]
  have hin : UInt64.ofNat index * .ofNat METADATA_PIECE_SIZE < .ofNat m.length := by
    rwa [UInt64.lt_iff_toNat_lt, hfirst, hsize]
  unfold doReceivedAction
  dsimp only
  rw [if_neg hempty, if_pos hin, substring, hfirst]
  split
  next => rw [hlast]
  next hle =>
    rw [UInt64.le_iff_toNat_le, hlast, hsize] at hle
    rw [hsize, List.take_length, List.take_of_length_le (by omega)]

theorem doReceivedAction_outside (hne : m ≠ []) (h : m.length ≤ position index) :
    ∃ e, doReceivedAction m (.ofNat m.length) id (.ofNat index) = .error e := by
  have hempty : ¬m.isEmpty = true := by rwa [List.isEmpty_iff]
  have hout : ¬UInt64.ofNat index * .ofNat METADATA_PIECE_SIZE < .ofNat m.length := by
    rw [UInt64.lt_iff_toNat_lt, toNat_first, toNat_ofNat_of_lt hm]
    omega
  unfold doReceivedAction
  dsimp only
  rw [if_neg hempty, if_neg hout]
  exact ⟨_, rfl⟩

end

/-- A request is answered as it should be unless there is no metadata, or the product wraps around
to a position inside the metadata. -/
theorem answered_iff (m : Bytes) (hm : m.length < 2 ^ 63) (id : UInt8) (index : Nat)
    (hindex : index < 2 ^ 63) :
    Answered m id index ↔
      m ≠ [] ∧ (METADATA_PIECE_SIZE * index < 2 ^ 64 ∨ m.length ≤ position index) := by
  by_cases hne : m = []
  · subst hne
    refine iff_of_false (fun h => ?_) fun h => h.1 rfl
    unfold Answered at h
    rw [List.length_nil, doReceivedAction_nil] at h
    cases h.1
  rw [and_iff_right hne]
  rcases Nat.lt_or_ge (position index) m.length with hin | hout
  · rw [or_iff_left (not_le.mpr hin), Answered, doReceivedAction_inside index hm id hne hin]
    constructor
    · rintro ⟨-, hpiece, -⟩
      by_contra hwrap
      refine hpiece (List.drop_eq_nil_of_le ?_)
      rw [List.length_take]
      omega
    · intro hlt
      have hpos : position index = METADATA_PIECE_SIZE * index := Nat.mod_eq_of_lt hlt
      have hpiece : (m.take (position index + METADATA_PIECE_SIZE)).drop (position index) =
          piece m index := by
        rw [hpos, piece, Nat.mul_succ]
      rw [hpiece]
      refine ⟨rfl, fun hnil => ?_, fun registry hname => createMessage_data
        (by rwa [toNat_ofNat_of_lt hindex]) (by rwa [toNat_ofNat_of_lt hm]) hname _⟩
      have hlen := congrArg List.length hnil
      rw [piece, List.length_drop, List.length_take, List.length_nil, Nat.mul_succ, ← hpos] at hlen
      have hsize : 0 < METADATA_PIECE_SIZE := by decide
      omega
  · obtain ⟨e, he⟩ := doReceivedAction_outside index hm id hne hout
    rw [Answered, he]
    exact iff_of_true trivial (.inr hout)

/-- Metadata of one whole piece and three bytes. -/
def oneAndThreeBytes : Bytes := List.replicate METADATA_PIECE_SIZE 0 ++ [1, 2, 3]

theorem length_oneAndThreeBytes : oneAndThreeBytes.length = 16387 := by
  rw [oneAndThreeBytes, List.length_append, List.length_replicate]
  rfl

/-- The second piece is what is left; there is no third one to be sent. -/
theorem answered_iff_second :
    Answered oneAndThreeBytes 3 1 ∧ piece oneAndThreeBytes 1 = [1, 2, 3] ∧
      Answered oneAndThreeBytes 3 2 := by
  have hne : oneAndThreeBytes ≠ [] := List.append_ne_nil_of_right_ne_nil _ (List.cons_ne_nil _ _)
  have hlen : oneAndThreeBytes.length < 2 ^ 63 := by
    rw [length_oneAndThreeBytes]
    decide
  rw [answered_iff oneAndThreeBytes hlen 3 1 (by decide),
    answered_iff oneAndThreeBytes hlen 3 2 (by decide)]
  refine ⟨⟨hne, .inl (by decide)⟩, ?_, hne, .inl (by decide)⟩
  have htake : oneAndThreeBytes.take (METADATA_PIECE_SIZE * (1 + 1)) = oneAndThreeBytes :=
    List.take_of_length_le (by rw [length_oneAndThreeBytes]; decide)
  have hfirst : METADATA_PIECE_SIZE * 1 =
      (List.replicate METADATA_PIECE_SIZE (0 : UInt8)).length := by
    rw [List.length_replicate, Nat.mul_one]
  rw [piece, htake, hfirst, oneAndThreeBytes, List.drop_left]

/-- Of one byte of metadata, the piece number `2^50` is sent. -/
theorem answered_counterexample : ¬Answered [0x64] 3 (2 ^ 50) := by
  intro h
  have hin : position (2 ^ 50) < [(0x64 : UInt8)].length := by decide
  rw [Answered, doReceivedAction_inside (2 ^ 50) (by decide) 3 (List.cons_ne_nil _ _) hin] at h
  refine h.2.1 (List.drop_eq_nil_of_le ?_)
  rw [List.length_take]
  exact (Nat.min_le_right ..).trans (by decide)

end FluxCore.Metadata
