import FluxCore.Utp.Sack

/-!
# Packets with chains of extensions

`parsePacketAt` is the parser with every read checked against the end of the datagram; no read fails
(`parsePacketAt_eq`). A packet is refused where its chain does not end inside the datagram, and what
is encoded is read back, whatever the chain.
-/

namespace FluxCore.Utp

/-! ## Checked reads -/

def be16At (data : Bytes) (off : Nat) : Option UInt16 := do
  let b0 ← data[off]?
  let b1 ← data[off + 1]?
  some (readBe16 [b0, b1])

def be32At (data : Bytes) (off : Nat) : Option UInt32 := do
  let b0 ← data[off]?
  let b1 ← data[off + 1]?
  let b2 ← data[off + 2]?
  let b3 ← data[off + 3]?
  some (readBe32 [b0, b1, b2, b3])

def sliceAt (data : Bytes) (off n : Nat) : Option Bytes :=
  if off + n ≤ data.length then some ((data.drop off).take n) else none

/-- The loop over the chain; `some none` is the `false` it returns. -/
def walkAt (data : Bytes) : Nat → Nat → UInt8 → Option (Option (List (UInt8 × Bytes)))
  | 0, _, extType => if extType = EXT_NONE then some (some []) else none
  | fuel + 1, off, extType =>
    if extType = EXT_NONE then some (some [])
    else if data.length < off + 2 then some none
    else do
      let nextType ← data[off]?
      let extLen ← data[off + 1]?
      let off := off + 2
      if data.length < off + extLen.toNat then some none
      else do
        let payload ← sliceAt data off extLen.toNat
        let rest ← walkAt data fuel (off + extLen.toNat) nextType
        some (rest.map ((extType, payload) :: ·))

def headerAt (data : Bytes) (b0 : UInt8) : Option PacketHeader := do
  let extension ← data[1]?
  let connectionId ← be16At data 2
  let timestamp ← be32At data 4
  let timestampDiff ← be32At data 8
  let wndSize ← be32At data 12
  let seqNr ← be16At data 16
  let ackNr ← be16At data 18
  some
    { type := (b0 >>> 4) &&& 0x0F
      version := b0 &&& 0x0F
      extension, connectionId, timestamp, timestampDiff, wndSize, seqNr, ackNr }

/-- `parsePacket`, where `none` is a read outside of the datagram or a chain that is never left. -/
def parsePacketAt (data : Bytes) : Option (Option (PacketHeader × List (UInt8 × Bytes))) :=
  if data.length < HEADER_LEN then some none
  else do
    let b0 ← data[0]?
    if b0 &&& 0x0F ≠ PROTOCOL_VERSION then some none
    else do
      let header ← headerAt data b0
      let exts ← walkAt data data.length HEADER_LEN header.extension
      some (exts.map (header, ·))

variable {data payload : Bytes} {off n fuel : Nat} {t : UInt8} {exts : List (UInt8 × Bytes)}

theorem getElem?_of_lt (h : off < data.length) : data[off]? = some (data.getD off 0) := by
  rw [List.getD_eq_getElem?_getD, List.getElem?_eq_getElem h, Option.getD_some]

theorem getD_drop (data : Bytes) (off i : Nat) :
    (data.drop off).getD i 0 = data.getD (off + i) 0 := by
  rw [List.getD_eq_getElem?_getD, List.getElem?_drop, List.getD_eq_getElem?_getD]

theorem be16At_eq (h : off + 2 ≤ data.length) :
    be16At data off = some (readBe16 (data.drop off)) := by
  rw [be16At, getElem?_of_lt (by omega), getElem?_of_lt (by omega)]
  simp only [readBe16, getD_drop]
  rfl

theorem be32At_eq (h : off + 4 ≤ data.length) :
    be32At data off = some (readBe32 (data.drop off)) := by
  rw [be32At, getElem?_of_lt (by omega), getElem?_of_lt (by omega), getElem?_of_lt (by omega),
    getElem?_of_lt (by omega)]
  simp only [readBe32, getD_drop]
  rfl

theorem sliceAt_eq (h : off + n ≤ data.length) :
    sliceAt data off n = some ((data.drop off).take n) :=
  if_pos h

theorem walkExtensions_none (fuel : Nat) (rest : Bytes) :
    walkExtensions fuel EXT_NONE rest = some [] := by
  cases fuel <;> rfl

theorem walkExtensions_short (ht : t ≠ EXT_NONE) {rest : Bytes} (h : rest.length < 2) :
    walkExtensions fuel t rest = none := by
  obtain - | fuel := fuel
  · exact if_neg ht
  · match rest, h with
    | [], _ => exact if_neg ht
    | [_], _ => exact if_neg ht

theorem walkExtensions_link (ht : t ≠ EXT_NONE) (next len : UInt8) (body : Bytes) :
    walkExtensions (fuel + 1) t (next :: len :: body) =
      if body.length < len.toNat then none
      else (walkExtensions fuel next (body.drop len.toNat)).map ((t, body.take len.toNat) :: ·) := by
  rw [walkExtensions, if_neg ht]

/-- The loop reads inside the datagram, comes to an end, and finds the extensions. -/
theorem walkAt_eq {k : Nat} (h : (data.drop off).length < fuel)
    (h' : (data.drop off).length ≤ k) :
    walkAt data fuel off t = some (walkExtensions k t (data.drop off)) := by
  induction fuel generalizing off k t with
  | zero => exact nomatch h
  | succ fuel ih =>
    rw [walkAt]
    by_cases ht : t = EXT_NONE
    · rw [if_pos ht, ht, walkExtensions_none]
    rw [if_neg ht]
    rw [List.length_drop] at h h'
    by_cases hshort : data.length < off + 2
    · rw [if_pos hshort, walkExtensions_short ht (by rw [List.length_drop]; omega)]
    obtain ⟨k, rfl⟩ : ∃ j, k = j + 1 := Nat.exists_eq_succ_of_ne_zero (by omega)
    have hdrop : data.drop off =
        data.getD off 0 :: data.getD (off + 1) 0 :: data.drop (off + 2) := by
      rw [List.drop_eq_getElem_cons (by omega), List.drop_eq_getElem_cons (i := off + 1) (by omega)]
      simp [List.getD_eq_getElem?_getD, List.getElem?_eq_getElem (show off < data.length by omega),
        List.getElem?_eq_getElem (show off + 1 < data.length by omega)]
    rw [if_neg hshort, getElem?_of_lt (by omega), getElem?_of_lt (by omega), hdrop,
      walkExtensions_link ht]
    simp only [Option.bind_eq_bind, Option.bind_some, List.length_drop]
    generalize data.getD off 0 = next
    generalize data.getD (off + 1) 0 = len
    by_cases hlen : data.length < off + 2 + len.toNat
    · rw [if_pos hlen, if_pos (by omega)]
    · rw [if_neg hlen, if_neg (by omega), sliceAt_eq (by omega), Option.bind_some, List.drop_drop,
        ih (k := k) (by rw [List.length_drop]; omega) (by rw [List.length_drop]; omega),
        Option.bind_some]

/-- No read is outside of the datagram. -/
theorem parsePacketAt_eq (data : Bytes) : parsePacketAt data = some (parsePacket data) := by
  rw [parsePacketAt, parsePacket]
  by_cases hlen : data.length < HEADER_LEN
  · rw [if_pos hlen, if_pos hlen]
  rw [if_neg hlen, if_neg hlen]
  have h20 : 20 ≤ data.length := Nat.not_lt.mp hlen
  rw [getElem?_of_lt (by omega), Option.bind_eq_bind, Option.bind_some]
  dsimp only
  by_cases hversion : data.getD 0 0 &&& 0x0F ≠ PROTOCOL_VERSION
  · rw [if_pos hversion, if_pos hversion]
  rw [if_neg hversion, if_neg hversion, headerAt, getElem?_of_lt (by omega), be16At_eq (by omega),
    be32At_eq (by omega), be32At_eq (by omega), be32At_eq (by omega), be16At_eq (by omega),
    be16At_eq (by omega)]
  simp only [Option.bind_eq_bind, Option.bind_some]
  rw [walkAt_eq (k := (data.drop HEADER_LEN).length) ?_ (Nat.le_refl _), Option.bind_some]
  rw [List.length_drop, HEADER_LEN]
  omega

/-! ## Chains -/

/-- The chain that begins with this type ends inside the bytes. -/
inductive Ends : UInt8 → Bytes → Prop where
  | none (rest : Bytes) : Ends EXT_NONE rest
  | link (extType next len : UInt8) (payload rest : Bytes) : extType ≠ EXT_NONE →
      payload.length = len.toNat → Ends next rest →
      Ends extType (next :: len :: (payload ++ rest))

theorem isSome_walkExtensions_iff {rest : Bytes} (h : rest.length ≤ fuel) :
    (walkExtensions fuel t rest).isSome = true ↔ Ends t rest := by
  induction fuel generalizing t rest with
  | zero =>
    obtain rfl := List.length_eq_zero_iff.mp (Nat.le_zero.mp h)
    rw [walkExtensions]
    split
    next ht => exact iff_of_true rfl (ht ▸ .none [])
    next ht => exact iff_of_false nofun fun hends => by cases hends; exact ht rfl
  | succ fuel ih =>
    by_cases ht : t = EXT_NONE
    · rw [ht, walkExtensions_none]
      exact iff_of_true rfl (.none rest)
    match rest with
    | [] =>
      rw [walkExtensions_short ht (by decide)]
      exact iff_of_false nofun fun hends => by cases hends; exact ht rfl
    | [b] =>
      rw [walkExtensions_short ht (Nat.lt_succ_self [b].length)]
      exact iff_of_false nofun fun hends => by cases hends; exact ht rfl
    | next :: len :: body =>
      rw [walkExtensions_link ht]
      simp only [List.length_cons] at h
      split
      next hlt =>
        refine iff_of_false nofun fun hends => ?_
        cases hends with
        | none => exact ht rfl
        | link _ _ _ payload rest _ hlen _ =>
          rw [List.length_append] at hlt
          omega
      next hge =>
        rw [Option.isSome_map, ih (by rw [List.length_drop]; omega)]
        constructor
        · intro hends
          have hlink := Ends.link t next len (body.take len.toNat) _ ht
            (List.length_take_of_le (Nat.not_lt.mp hge)) hends
          rwa [List.take_append_drop] at hlink
        · intro hends
          cases hends with
          | none => exact absurd rfl ht
          | link _ _ _ payload rest _ hlen hends => rwa [List.drop_left' hlen]

/-! ## Encoding chains -/

/-- The type that the link or the header in front of the extensions carries. -/
def firstType (exts : List (UInt8 × Bytes)) : UInt8 := (exts.head?.map Prod.fst).getD EXT_NONE

def encodeExtensions : List (UInt8 × Bytes) → Bytes
  | [] => []
  | e :: exts => firstType exts :: UInt8.ofNat e.2.length :: (e.2 ++ encodeExtensions exts)

/-- Extensions that a chain can hold. -/
def Chainable (exts : List (UInt8 × Bytes)) : Prop := ∀ e ∈ exts, e.1 ≠ EXT_NONE ∧ e.2.length ≤ 255

theorem length_encodeExtensions (exts : List (UInt8 × Bytes)) :
    (encodeExtensions exts).length = extTotal exts := by
  induction exts with
  | nil => rfl
  | cons e exts ih =>
    rw [encodeExtensions, List.length_cons, List.length_cons, List.length_append, ih, extTotal,
      extTotal, List.map_cons, List.sum_cons]
    omega

theorem walkExtensions_encode (h : Chainable exts) (payload : Bytes)
    (hfuel : (encodeExtensions exts ++ payload).length ≤ fuel) :
    walkExtensions fuel (firstType exts) (encodeExtensions exts ++ payload) = some exts := by
  induction exts generalizing fuel with
  | nil => exact walkExtensions_none fuel payload
  | cons e exts ih =>
    obtain ⟨⟨htype, hlen⟩, hrest⟩ := List.forall_mem_cons.mp h
    have hlen' : (UInt8.ofNat e.2.length).toNat = e.2.length :=
      UInt8.toNat_ofNat_of_lt' (Nat.lt_succ_of_le hlen)
    rw [encodeExtensions] at hfuel ⊢
    simp only [List.cons_append, List.append_assoc, List.length_cons, List.length_append] at hfuel ⊢
    obtain ⟨fuel, rfl⟩ : ∃ k, fuel = k + 1 := Nat.exists_eq_succ_of_ne_zero (by omega)
    rw [show firstType (e :: exts) = e.1 from rfl, walkExtensions_link htype, hlen',
      if_neg (by simp), List.drop_left, List.take_left,
      ih hrest (by rw [List.length_append]; omega)]
    rfl

/-- `parsePacket`: what is encoded is read back with the payload behind it; every datagram is read
inside its bounds, and refused if and only if it is short, of another version or the chain does not
end in it. The bitmap of an acknowledgement is read back, too. -/
theorem parsePacket_codec :
    (∀ (h : PacketHeader) (exts : List (UInt8 × Bytes)) (payload : Bytes), h.Encodable →
      Chainable exts → h.extension = firstType exts →
      let data := encodeHeader h ++ (encodeExtensions exts ++ payload)
      parsePacket data = some (h, exts) ∧
        HEADER_LEN + extTotal exts = (encodeHeader h ++ encodeExtensions exts).length ∧
        payloadOf data exts = payload) ∧
    (∀ data : Bytes, parsePacketAt data = some (parsePacket data) ∧
      (parsePacket data = none ↔ data.length < HEADER_LEN ∨
        data.getD 0 0 &&& 0x0F ≠ PROTOCOL_VERSION ∨
        ¬ Ends (data.getD 1 0) (data.drop HEADER_LEN))) ∧
    ∀ (out : Bytes) (bits : UInt32),
      decodeSackBits ((appendSackExtension out bits).drop (out.length + 2)) = bits := by
  refine ⟨fun h exts payload hh hexts hext => ⟨?_, ?_, ?_⟩, fun data => ⟨parsePacketAt_eq data, ?_⟩,
    fun out bits => ?_⟩
  · rw [parsePacket_encode hh, hext, walkExtensions_encode hexts payload (Nat.le_refl _)]
    rfl
  · rw [List.length_append, length_encodeHeader, length_encodeExtensions]
  · rw [payloadOf, ← length_encodeExtensions, ← length_encodeHeader h, ← List.drop_drop,
      List.drop_left, List.drop_left]
  · rw [parsePacket]
    by_cases hlen : data.length < HEADER_LEN
    · rw [if_pos hlen]
      exact iff_of_true rfl (.inl hlen)
    rw [if_neg hlen]
    dsimp only
    by_cases hversion : data.getD 0 0 &&& 0x0F ≠ PROTOCOL_VERSION
    · rw [if_pos hversion]
      exact iff_of_true rfl (.inr (.inl hversion))
    rw [if_neg hversion, ← isSome_walkExtensions_iff (Nat.le_refl _), Option.map_eq_none_iff,
      or_iff_right hlen, or_iff_right hversion, Bool.not_eq_true, Option.isSome_eq_false_iff,
      Option.isNone_iff_eq_none]
  · have hdrop : (appendSackExtension out bits).drop (out.length + 2) = sackBitmap bits := by
      rw [appendSackExtension, List.append_assoc, ← List.drop_drop, List.drop_left]
      rfl
    rw [hdrop, decodeSackBits_sackBitmap]

theorem parsePacket_codec_witness :
    let h : PacketHeader := { type := ST_DATA, extension := 2 }
    let exts : List (UInt8 × Bytes) := [(2, [7, 8]), (EXT_SACK, [1, 0, 0, 0])]
    let data := encodeHeader h ++ (encodeExtensions exts ++ [9, 9])
    parsePacket data = some (h, exts) ∧
      HEADER_LEN + extTotal exts = (encodeHeader h ++ encodeExtensions exts).length ∧
      payloadOf data exts = [9, 9] :=
  parsePacket_codec.1 { type := ST_DATA, extension := 2 } [(2, [7, 8]), (EXT_SACK, [1, 0, 0, 0])]
    [9, 9] ⟨by decide, rfl⟩ (by simp [Chainable, EXT_NONE, EXT_SACK]) rfl

end FluxCore.Utp
