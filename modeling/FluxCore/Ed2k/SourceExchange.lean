import FluxCore.Ed2k.DownloadCommand

/-!
# Source exchange

`parseSourcesAnswer` of `Ed2kDownloadCommand.cc`. An answer holds `[hash][count][entries]`, or a
version byte in front of that; the count has one byte or two and an entry 6 or 12, and nothing in
the answer says which. The parser takes the first of four guesses for which the bytes behind the
count divide evenly. `decoded_iff` says which answers are read in the layout they were written in.
-/

namespace FluxCore.Ed2k

def readLe16 (p : Bytes) : UInt16 := (p.getD 0 0).toUInt16 ||| ((p.getD 1 0).toUInt16 <<< 8)

def writeLe16 (v : UInt16) : Bytes := [v.toUInt8, (v >>> 8).toUInt8]

/-- The address bytes are the octets of the dotted quad in order. -/
def ipFromWire (p : Bytes) : String :=
  toString (p.getD 0 0).toNat ++ "." ++ toString (p.getD 1 0).toNat ++ "." ++
    toString (p.getD 2 0).toNat ++ "." ++ toString (p.getD 3 0).toNat

/-- Clients with a smaller id cannot be connected to. -/
def HIGH_ID : UInt32 := 0x01000000

/-- How the parser reads an answer. -/
structure Reading where
  base : Nat
  countBytes : Nat
  count : Nat
  entrySize : Nat
  deriving DecidableEq, Repr

/-- The reading of a guess, if the bytes fit it. -/
def guess (payload : Bytes) (base countBytes : Nat) : Option Reading :=
  let countOff := base + 16
  if payload.length < base + 17 ∨ payload.length < countOff + countBytes then none
  else
    let count := if countBytes = 1 then (payload.getD countOff 0).toNat
      else (readLe16 (payload.drop countOff)).toNat
    let remaining := payload.length - (countOff + countBytes)
    if count = 0 ∨ 500 < count then none
    else if remaining = 0 ∨ remaining % count ≠ 0 then none
    else if remaining / count < 6 then none
    else some { base, countBytes, count, entrySize := remaining / count }

/-- The guesses in the order in which they are made. -/
def guesses : List (Nat × Nat) := [(0, 1), (0, 2), (1, 1), (1, 2)]

def reading (payload : Bytes) : Option Reading :=
  guesses.findSome? fun g => guess payload g.1 g.2

/-- The source an entry names, unless it has a low id or no port. -/
def entrySource (entry : Bytes) : Option (String × Nat) :=
  let port := readLe16 (entry.drop 4)
  if readLe32 entry < HIGH_ID ∨ port = 0 then none else some (ipFromWire entry, port.toNat)

/-- What a reading offers to `addSource`, in order. -/
def Reading.sources (r : Reading) (payload : Bytes) : List (String × Nat) :=
  (List.range r.count).filterMap fun i =>
    entrySource (payload.drop (r.base + 16 + r.countBytes + i * r.entrySize))

/-- What an answer offers to `addSource`. -/
def answeredSources (payload : Bytes) : List (String × Nat) :=
  match reading payload with
  | some r => r.sources payload
  | none => []

/-- The callers do not use the number of sources that were added. -/
def DownloadCommand.parseSourcesAnswer (c : DownloadCommand) (payload : Bytes)
    (wallclock now : Nat) : DownloadCommand :=
  (answeredSources payload).foldl (fun c s => c.addSource s.1 s.2 wallclock now) c

/-! ## Answers as they are written -/

/-- A source that can be connected to, and the server it is on. -/
structure AnswerEntry where
  id : UInt32
  port : UInt16
  serverIp : UInt32 := 0
  serverPort : UInt16 := 0
  high : HIGH_ID ≤ id := by decide
  port_ne : port ≠ 0 := by decide

structure AnswerLayout where
  /-- A version byte stands in front of the hash. -/
  versioned : Bool
  /-- The count has two bytes. -/
  wide : Bool
  /-- The entries name the server of the source. -/
  server : Bool
  deriving DecidableEq, Repr

namespace AnswerLayout

variable (l : AnswerLayout)

def base : Nat := if l.versioned then 1 else 0

def countBytes : Nat := if l.wide then 2 else 1

def entrySize : Nat := if l.server then 12 else 6

end AnswerLayout

/-- An answer with between 1 and 255 sources. -/
structure SourcesAnswer where
  layout : AnswerLayout
  version : UInt8 := 1
  hash : Bytes
  entries : List AnswerEntry
  hash_length : hash.length = 16 := by decide
  ne_nil : entries ≠ [] := by decide
  length_lt : entries.length < 256 := by decide

def AnswerEntry.encode (e : AnswerEntry) (server : Bool) : Bytes :=
  writeLe32 e.id ++ writeLe16 e.port ++
    if server then writeLe32 e.serverIp ++ writeLe16 e.serverPort else []

/-- The address and the port of the source. -/
def AnswerEntry.source (e : AnswerEntry) : String × Nat :=
  (ipFromWire (writeLe32 e.id), e.port.toNat)

namespace SourcesAnswer

variable (a : SourcesAnswer)

def count : Nat := a.entries.length

/-- The count and the entries. -/
def body : Bytes :=
  (if a.layout.wide then writeLe16 (UInt16.ofNat a.count) else [UInt8.ofNat a.count]) ++
    a.entries.flatMap fun e => e.encode a.layout.server

def encode : Bytes :=
  (if a.layout.versioned then [a.version] else []) ++ a.hash ++ a.body

/-- The reading that takes the answer as it was written. -/
def writtenReading : Reading where
  base := a.layout.base
  countBytes := a.layout.countBytes
  count := a.count
  entrySize := a.layout.entrySize

/-- The parser reads the answer in its layout and offers its sources in order. -/
def Decoded : Prop :=
  reading a.encode = some a.writtenReading ∧
    answeredSources a.encode = a.entries.map AnswerEntry.source

/-- The last byte of the hash. -/
def lastByte : Nat := (a.hash.getD 15 0).toNat

/-- The number of bytes of the count and the entries. -/
def bodyLength : Nat := a.layout.countBytes + a.count * a.layout.entrySize

/-- A count of two bytes is not 1, and behind a version byte the last byte of the hash is no count of
entries into which the rest could be divided. -/
def Unambiguous : Prop :=
  (a.layout.wide → a.count ≠ 1) ∧
    (a.layout.versioned →
      ¬(a.lastByte ≠ 0 ∧ a.lastByte ∣ a.bodyLength ∧ 6 * a.lastByte ≤ a.bodyLength))

end SourcesAnswer

/-! ## Entries -/

theorem toNat_readLe16 (p : Bytes) :
    (readLe16 p).toNat = (p.getD 0 0).toNat + 256 * (p.getD 1 0).toNat := by
  have h0 := (p.getD 0 0).toNat_lt
  have h1 := (p.getD 1 0).toNat_lt
  unfold readLe16
  generalize p.getD 0 0 = b at *
  generalize p.getD 1 0 = b' at *
  simp [Nat.shiftLeft_eq]
  simp (disch := omega) only [Nat.mod_eq_of_lt]
  rw [or_mul_of_lt (b := b'.toNat) 8 (by decide) (by omega)]
  omega

theorem readLe16_writeLe16 (v : UInt16) (rest : Bytes) : readLe16 (writeLe16 v ++ rest) = v := by
  have hv := v.toNat_lt
  apply UInt16.toNat_inj.mp
  rw [toNat_readLe16]
  simp [writeLe16, Nat.shiftRight_eq_div_pow]
  omega

theorem entrySource_encode (e : AnswerEntry) (server : Bool) (rest : Bytes) :
    entrySource (e.encode server ++ rest) = some e.source := by
  have hid : readLe32 (e.encode server ++ rest) = e.id := by
    rw [AnswerEntry.encode, List.append_assoc, List.append_assoc, readLe32_writeLe32]
  have hport : readLe16 ((e.encode server ++ rest).drop 4) = e.port := by
    rw [AnswerEntry.encode, List.append_assoc, List.append_assoc,
      List.drop_append_of_le_length (by simp [writeLe32])]
    exact readLe16_writeLe16 ..
  unfold entrySource
  dsimp only
  rw [hid, hport, if_neg (not_or.mpr ⟨UInt32.not_lt.mpr e.high, e.port_ne⟩)]
  rfl

@[simp] theorem AnswerEntry.length_encode (e : AnswerEntry) (l : AnswerLayout) :
    (e.encode l.server).length = l.entrySize := by
  unfold AnswerEntry.encode AnswerLayout.entrySize
  split <;> simp [writeLe32, writeLe16, *]

/-- Entries of one size are read one after the other. -/
theorem sources_of_entries (l : AnswerLayout) (es : List AnswerEntry) :
    ((List.range es.length).filterMap fun i =>
      entrySource ((es.flatMap fun e => e.encode l.server).drop (i * l.entrySize))) =
      es.map AnswerEntry.source := by
  induction es with
  | nil => rfl
  | cons e es ih =>
    rw [List.length_cons, List.range_succ_eq_map, List.filterMap_cons, Nat.zero_mul, List.drop_zero,
      List.flatMap_cons, entrySource_encode, List.map_cons, List.filterMap_map, ← ih]
    refine congrArg _ (List.filterMap_congr fun i _ => ?_)
    have hlen : (i + 1) * l.entrySize = (e.encode l.server).length + i * l.entrySize := by
      rw [e.length_encode l, Nat.succ_mul, Nat.add_comm]
    rw [Function.comp_apply, hlen, List.drop_length_add_append]

/-! ## Guesses -/

theorem head_drop (p : Bytes) (k : Nat) : (p.drop k).getD 0 0 = p.getD k 0 := by
  simp [List.getD_eq_getElem?_getD]

/-- A guess fits when the bytes behind the count are so many times at least six. -/
theorem guess_eq {payload : Bytes} {base countBytes : Nat} (count remaining : Nat)
    (hpos : 0 < countBytes) (hlen : payload.length = base + 16 + countBytes + remaining)
    (hcount : count = if countBytes = 1 then (payload.getD (base + 16) 0).toNat
      else (readLe16 (payload.drop (base + 16))).toNat) :
    guess payload base countBytes =
      if count ≠ 0 ∧ count ≤ 500 ∧ count ∣ remaining ∧ 6 * count ≤ remaining then
        some { base, countBytes, count, entrySize := remaining / count }
      else none := by
  have hrem : payload.length - (base + 16 + countBytes) = remaining := by omega
  unfold guess
  dsimp only
  rw [if_neg (by omega), ← hcount, hrem]
  by_cases h1 : count = 0 ∨ 500 < count
  · rw [if_pos h1, if_neg (by omega)]
  rw [if_neg h1]
  have hdiv : remaining / count < 6 ↔ remaining < 6 * count :=
    Nat.div_lt_iff_lt_mul (by omega)
  by_cases h2 : count ∣ remaining
  · by_cases h3 : 6 * count ≤ remaining
    · have hmod := Nat.mod_eq_zero_of_dvd h2
      rw [if_neg (by omega), if_neg (by omega), if_pos ⟨by omega, by omega, h2, h3⟩]
    · rw [if_neg fun h : count ≠ 0 ∧ count ≤ 500 ∧ count ∣ remaining ∧ 6 * count ≤ remaining =>
        h3 h.2.2.2]
      split
      · rfl
      · exact if_pos (hdiv.mpr (by omega))
  · have hmod : remaining % count ≠ 0 := fun h => h2 (Nat.dvd_of_mod_eq_zero h)
    rw [if_pos (.inr hmod), if_neg fun h => h2 h.2.2.1]

namespace SourcesAnswer

variable (a : SourcesAnswer)

theorem count_pos : 0 < a.count := List.length_pos_of_ne_nil a.ne_nil

theorem entrySize_ge (l : AnswerLayout) : 6 ≤ l.entrySize ∧ l.entrySize ≤ 12 := by
  unfold AnswerLayout.entrySize
  split <;> omega

theorem length_entries :
    (a.entries.flatMap fun e => e.encode a.layout.server).length =
      a.count * a.layout.entrySize := by
  rw [List.length_flatMap, List.map_congr_left fun e _ => e.length_encode a.layout,
    List.map_const', List.sum_replicate_nat]
  rfl

theorem length_body : a.body.length = a.bodyLength := by
  rw [body, List.length_append, length_entries, bodyLength, AnswerLayout.countBytes]
  split <;> rfl

theorem length_encode : a.encode.length = a.layout.base + 16 + a.bodyLength := by
  rw [encode, List.length_append, List.length_append, length_body, a.hash_length,
    AnswerLayout.base]
  split <;> rfl

/-- The body stands behind the hash. -/
theorem drop_encode : a.encode.drop (a.layout.base + 16) = a.body := by
  rw [encode]
  refine List.drop_left' ?_
  rw [List.length_append, a.hash_length, AnswerLayout.base]
  split <;> rfl

/-- The first byte of the count is the number of entries. -/
theorem head_body : (a.body.getD 0 0).toNat = a.count := by
  have hlt : a.count < 256 := a.length_lt
  rw [body]
  split
  · simpa [writeLe16] using hlt
  · simpa using hlt

theorem readLe16_body (h : a.layout.wide) : (readLe16 a.body).toNat = a.count := by
  have hlt := a.length_lt
  rw [body, if_pos h, readLe16_writeLe16]
  exact UInt16.toNat_ofNat_of_lt' (Nat.lt_trans hlt (by decide))

/-! ## What the parser makes of an answer -/

theorem sources_written : a.writtenReading.sources a.encode = a.entries.map AnswerEntry.source := by
  rw [← sources_of_entries a.layout]
  refine List.filterMap_congr fun i _ => ?_
  have hdrop : a.encode.drop (a.layout.base + 16 + a.layout.countBytes) =
      a.entries.flatMap fun e => e.encode a.layout.server := by
    rw [← List.drop_drop, drop_encode, body]
    refine List.drop_left' ?_
    rw [AnswerLayout.countBytes]
    split <;> rfl
  rw [← hdrop, List.drop_drop]
  rfl

/-- The parser reads an answer as it was written when it takes the right guess. -/
theorem decoded_iff_reading : a.Decoded ↔ reading a.encode = some a.writtenReading := by
  refine ⟨And.left, fun h => ⟨h, ?_⟩⟩
  rw [answeredSources, h]
  exact a.sources_written

/-- What a guess makes of the answer: at its own place the count is the number of entries. -/
theorem guess_own (countBytes : Nat) (h : countBytes = 1 ∨ countBytes = 2 ∧ a.layout.wide) :
    guess a.encode a.layout.base countBytes =
      if a.count ∣ a.bodyLength - countBytes ∧ 6 * a.count ≤ a.bodyLength - countBytes then
        some ⟨a.layout.base, countBytes, a.count, (a.bodyLength - countBytes) / a.count⟩
      else none := by
  have hpos := a.count_pos
  have hlt : a.count < 256 := a.length_lt
  obtain ⟨h6, -⟩ := entrySize_ge a.layout
  have hbody : a.layout.countBytes + a.count * a.layout.entrySize = a.bodyLength := rfl
  have hmul := Nat.mul_le_mul hpos h6
  have hcb : countBytes ≤ a.layout.countBytes := by
    rw [AnswerLayout.countBytes]
    rcases h with rfl | ⟨rfl, hw⟩
    · split <;> omega
    · rw [if_pos hw]
  have hlen := a.length_encode
  rw [guess_eq a.count (a.bodyLength - countBytes) (by omega) (by omega)]
  · refine ite_congr (propext ⟨fun h => h.2.2, fun h => ⟨by omega, by omega, h⟩⟩) (fun _ => rfl)
      fun _ => rfl
  · rcases h with rfl | ⟨rfl, hw⟩
    · rw [if_pos rfl, ← head_drop, drop_encode, head_body]
    · rw [if_neg (by decide), drop_encode, readLe16_body a hw]

/-- Behind a version byte the guesses without one take the last byte of the hash for a count. -/
theorem guess_hash (hv : a.layout.versioned) :
    (guess a.encode 0 1 =
      if a.lastByte ≠ 0 ∧ a.lastByte ∣ a.bodyLength ∧ 6 * a.lastByte ≤ a.bodyLength then
        some ⟨0, 1, a.lastByte, a.bodyLength / a.lastByte⟩
      else none) ∧
    guess a.encode 0 2 = none := by
  have hbase : a.layout.base = 1 := if_pos hv
  have hlen := a.length_encode
  have hpos := a.count_pos
  have hlt : a.count < 256 := a.length_lt
  have hhash : a.lastByte < 256 := (a.hash.getD 15 0).toNat_lt
  obtain ⟨h6, h12⟩ := entrySize_ge a.layout
  have hbody : a.layout.countBytes + a.count * a.layout.entrySize = a.bodyLength := rfl
  have hmul := Nat.mul_le_mul_left a.count h12
  have hlast : a.encode.drop 16 = a.hash.getD 15 0 :: a.body := by
    have h15 : a.hash.drop 15 = [a.hash.getD 15 0] := by
      have hh := a.hash_length
      rw [List.drop_eq_getElem_cons (by omega), List.drop_eq_nil_of_le (by omega),
        List.getD_eq_getElem _ _ (by omega)]
    rw [encode, if_pos hv, List.append_assoc, List.singleton_append, List.drop_succ_cons,
      List.drop_append_of_le_length (by rw [a.hash_length]; decide), h15]
    rfl
  have hcb : a.layout.countBytes = 1 ∨ a.layout.countBytes = 2 := by
    rw [AnswerLayout.countBytes]
    split <;> simp
  constructor
  · rw [guess_eq a.lastByte a.bodyLength (by decide) (by omega)]
    · refine ite_congr (propext ⟨fun h => ⟨h.1, h.2.2⟩, fun h => ⟨h.1, by omega, h.2⟩⟩)
        (fun _ => rfl) fun _ => rfl
    · rw [if_pos rfl, ← head_drop, hlast]
      rfl
  · have hread : (readLe16 (a.encode.drop 16)).toNat = a.lastByte + 256 * a.count := by
      rw [toNat_readLe16, hlast, ← a.head_body]
      rfl
    rw [guess_eq (a.lastByte + 256 * a.count) (a.bodyLength - 1) (by decide) (by omega)]
    · exact if_neg fun h => by omega
    · rw [if_neg (by decide), hread]

/-- The right guess fits, and the one with a shorter count does when there is a single entry. -/
theorem guess_right :
    guess a.encode a.layout.base a.layout.countBytes = some a.writtenReading ∧
      (a.layout.wide → (guess a.encode a.layout.base 1).isSome = (a.count = 1)) := by
  have hpos := a.count_pos
  obtain ⟨h6, -⟩ := entrySize_ge a.layout
  have hmul := Nat.mul_le_mul_left a.count h6
  have hbody : a.layout.countBytes + a.count * a.layout.entrySize = a.bodyLength := rfl
  constructor
  · have hrest : a.bodyLength - a.layout.countBytes = a.count * a.layout.entrySize := by omega
    rw [guess_own a _ ?_, hrest, if_pos ⟨Nat.dvd_mul_right .., by omega⟩,
      Nat.mul_div_cancel_left _ hpos]
    · rfl
    · rw [AnswerLayout.countBytes]
      split
      next hw => exact .inr ⟨rfl, hw⟩
      · exact .inl rfl
  · intro hw
    have hcb : a.layout.countBytes = 2 := if_pos hw
    have hrest : a.bodyLength - 1 = a.count * a.layout.entrySize + 1 := by omega
    rw [guess_own a 1 (.inl rfl), hrest]
    have hdvd : a.count ∣ a.count * a.layout.entrySize + 1 ↔ a.count = 1 :=
      (Nat.dvd_add_right (Nat.dvd_mul_right ..)).trans Nat.dvd_one
    split
    next h => simpa using hdvd.mp h.1
    next h =>
      simp only [Option.isSome_none, Bool.false_eq_true, eq_iff_iff, false_iff]
      exact fun h1 => h ⟨hdvd.mpr h1, by omega⟩

theorem guess_fields {payload : Bytes} {base countBytes : Nat} {r : Reading}
    (h : guess payload base countBytes = some r) : r.base = base ∧ r.countBytes = countBytes := by
  unfold guess at h
  dsimp only at h
  generalize (if countBytes = 1 then (payload.getD (base + 16) 0).toNat
    else (readLe16 (payload.drop (base + 16))).toNat) = count at h
  split at h
  · cases h
  iterate 3 (split at h; · cases h)
  cases h
  exact ⟨rfl, rfl⟩

/-- A guess at another place or with another count is not the right one. -/
theorem ne_writtenReading {base countBytes : Nat} {r : Reading}
    (hr : guess a.encode base countBytes = some r)
    (hne : (base, countBytes) ≠ (a.layout.base, a.layout.countBytes)) :
    some r ≠ some a.writtenReading := by
  rintro heq
  obtain ⟨rfl, rfl⟩ := guess_fields hr
  cases Option.some.inj heq
  exact hne rfl

/-- The two guesses at the right place. -/
theorem own_guesses :
    let own := (guess a.encode a.layout.base 1).or (guess a.encode a.layout.base 2)
    own.isSome ∧ (own = some a.writtenReading ↔ (a.layout.wide → a.count ≠ 1)) := by
  obtain ⟨hright, hshort⟩ := a.guess_right
  by_cases hw : a.layout.wide
  · have hcb : a.layout.countBytes = 2 := if_pos hw
    rw [hcb] at hright
    rw [hright]
    cases h1 : guess a.encode a.layout.base 1 with
    | none =>
      have hcount : ¬a.count = 1 := fun h => by simpa [h1, h] using hshort hw
      exact ⟨rfl, iff_of_true rfl fun _ => hcount⟩
    | some r =>
      have hcount : a.count = 1 := by simpa [h1] using hshort hw
      exact ⟨rfl, iff_of_false (a.ne_writtenReading h1 (by simp [hcb])) fun h => h hw hcount⟩
  · have hcb : a.layout.countBytes = 1 := if_neg hw
    rw [hcb] at hright
    rw [hright]
    exact ⟨rfl, iff_of_true rfl fun h => absurd h hw⟩

/-- The answers that are read in the layout they were written in, so that their sources are offered
in order. -/
theorem decoded_iff : a.Decoded ↔ a.Unambiguous := by
  rw [decoded_iff_reading]
  obtain ⟨hsome, hown⟩ := a.own_guesses
  have hreading : reading a.encode = ((guess a.encode 0 1).or (guess a.encode 0 2)).or
      ((guess a.encode 1 1).or (guess a.encode 1 2)) := by
    unfold reading guesses
    cases h1 : guess a.encode 0 1 <;> cases h2 : guess a.encode 0 2 <;>
      cases h3 : guess a.encode 1 1 <;> cases h4 : guess a.encode 1 2 <;>
      simp [h1, h2, h3, h4]
  rw [hreading, Unambiguous]
  by_cases hv : a.layout.versioned
  · have hbase : a.layout.base = 1 := if_pos hv
    obtain ⟨hhash, hnone⟩ := a.guess_hash hv
    rw [hbase] at hown
    rw [hnone, Option.or_none, hhash]
    split
    next hfit =>
      rw [if_pos hfit] at hhash
      refine iff_of_false ?_ fun h => h.2 hv hfit
      exact a.ne_writtenReading hhash (by simp [hbase])
    next hfit =>
      rw [Option.none_or, hown]
      exact ⟨fun h => ⟨h, fun _ => hfit⟩, And.left⟩
  · have hbase : a.layout.base = 0 := if_neg hv
    rw [hbase] at hown hsome
    rw [Option.or_of_isSome hsome, hown]
    exact ⟨fun h => ⟨h, fun h' => absurd h' hv⟩, And.left⟩

/-- One source behind a count of two bytes: the second byte of the count is read as a byte of the
address. -/
theorem single_source_misread :
    let a : SourcesAnswer :=
      { layout := ⟨false, true, false⟩, hash := List.replicate 16 0xAB
        entries := [{ id := 0x04030201, port := 4662 }] }
    answeredSources a.encode = [("0.1.2.3", 13828)] ∧
      a.entries.map AnswerEntry.source = [("1.2.3.4", 4662)] := by
  decide +kernel

end SourcesAnswer

end FluxCore.Ed2k
