import FluxCore.Ed2k.DownloadCommand
import FluxCore.Ed2k.Md4Stream
import FluxCore.Bencode.Value

/-!
# Whole-file verification

`verifyHash` reads the file chunk by chunk, one chunk in a tick, and hashes it part by part. The
sizes and offsets are `int64_t`, which the offsets of a file do not overflow.
-/

namespace FluxCore.Ed2k.Verification

open Bencode (name)

/-! ## The loop -/

/-- `partSize_`. -/
def partSize : Nat := PART_SIZE.toNat

def VERIFY_CHUNK : Nat := 8 * 1024 * 1024

/-- A digit of `util::toHex`. -/
def toHexDigit (c : UInt8) : UInt8 := if c < 10 then c + 0x30 else c + (0x61 - 10)

/-- `util::toHex`. -/
def toHex (s : Bytes) : Bytes :=
  s.flatMap fun c : UInt8 => [toHexDigit (c >>> 4), toHexDigit (c &&& 0x0f)]

/-- The members of the command that are about the verification. -/
structure Verify where
  md4PartCtx : MD4Context
  partHashes : Bytes
  verifyOffset : Nat
  verifyPartStart : Nat
  verifyStarted : Bool

/-- The first call starts over. -/
def Verify.start (s : Verify) : Verify := if s.verifyStarted then s else ⟨md4Init, [], 0, 0, true⟩

/-- What was read goes through the contexts of the parts. -/
def feedLoop (size : Nat) : Nat → Bytes → Verify → Verify
  | 0, _, s => s
  | fuel + 1, data, s =>
    if data = [] then s
    else
      let partEnd := s.verifyPartStart + size
      let avail := min data.length (partEnd - s.verifyOffset)
      let s := { s with
        md4PartCtx := md4Update s.md4PartCtx (data.take avail)
        verifyOffset := s.verifyOffset + avail }
      let s :=
        if s.verifyOffset = partEnd then
          let digest := finalDigest s.md4PartCtx
          { s with
            md4PartCtx := digest.2
            partHashes := s.partHashes ++ digest.1
            verifyPartStart := partEnd }
        else s
      feedLoop size fuel (data.drop avail) s

/-- The digest of a trailing part. -/
def finishPart (fileSize : Nat) (s : Verify) : Verify :=
  if s.verifyPartStart < fileSize then
    let digest := finalDigest s.md4PartCtx
    { s with
      md4PartCtx := digest.2
      partHashes := s.partHashes ++ digest.1
      verifyPartStart := fileSize }
  else s

def computed (s : Verify) : Bytes :=
  let numParts := s.partHashes.length / 16
  if numParts ≤ 1 then toHex s.partHashes else toHex (computeMd4 s.partHashes)

/-- How a call ends. -/
inductive Verdict where
  | more
  | passed
  | thrown (message : String)
  deriving DecidableEq, Repr

/-- A call, in which `readData` returns `n toRead` bytes of the file. -/
def verifyHash (content fileHash : Bytes) (n : Nat → Nat) (s : Verify) : Verdict × Verify :=
  let s := s.start
  let toRead := min VERIFY_CHUNK (content.length - s.verifyOffset)
  if 0 < toRead ∧ n toRead = 0 then (.thrown "ED2K: failed to read file for verification", s)
  else
    let data := (content.drop s.verifyOffset).take (n toRead)
    let s := if 0 < toRead then feedLoop partSize data.length data s else s
    if s.verifyOffset < content.length then (.more, s)
    else
      let s := finishPart content.length s
      if computed s ≠ fileHash then
        (.thrown "ED2K file hash verification failed — downloaded data is corrupt", s)
      else (.passed, s)

/-- Calls until one of them ends, at most as many as there is fuel. -/
def verifyTicks (content fileHash : Bytes) : Nat → (Nat → Nat → Nat) → Verify → Verdict
  | 0, _, _ => .more
  | fuel + 1, reads, s =>
    match verifyHash content fileHash (reads 0) s with
    | (.more, s) => verifyTicks content fileHash fuel (fun i => reads (i + 1)) s
    | (verdict, _) => verdict

/-! ## The hash of a file -/

/-- The consecutive parts of a file, the last one possibly shorter. -/
def parts (size : Nat) (content : Bytes) : List Bytes :=
  (List.range ((content.length + size - 1) / size)).map fun i =>
    (content.drop (i * size)).take size

/-- The digest of the file if it is one part, of the digests of its parts if it is not. -/
def ed2kHash (content : Bytes) : Bytes :=
  if content.length ≤ partSize then md4Digest content
  else md4Digest ((parts partSize content).flatMap md4Digest)

/-- Two digits of `0123456789abcdef` for each byte. -/
def lowerHex (s : Bytes) : Bytes :=
  s.flatMap fun c =>
    [(name "0123456789abcdef").getD (c.toNat / 16) 0,
      (name "0123456789abcdef").getD (c.toNat % 16) 0]

theorem toHex_eq (s : Bytes) : toHex s = lowerHex s := by
  have h : ∀ n < 256, [toHexDigit (UInt8.ofNat n >>> 4), toHexDigit (UInt8.ofNat n &&& 0x0f)] =
      [(name "0123456789abcdef").getD (n / 16) 0, (name "0123456789abcdef").getD (n % 16) 0] := by
    decide +kernel
  rw [toHex, lowerHex]
  congr 1
  funext c
  have hc := h c.toNat c.toNat_lt
  rwa [UInt8.ofNat_toNat] at hc

theorem length_md4 (m : Bytes) : (md4 m).length = 16 := by
  rw [md4, digestBytes]
  rfl

/-! ## What a state knows -/

/-- The digests of the first parts. -/
def digests (size : Nat) (content : Bytes) (q : Nat) : Bytes :=
  (List.range q).flatMap fun i => md4 ((content.drop (i * size)).take size)

/-- The bytes below the offset have been hashed: those of the parts that are complete, and the
others in the context. -/
structure Verified (size : Nat) (content : Bytes) (s : Verify) (q : Nat) : Prop where
  started : s.verifyStarted = true
  offset_le : s.verifyOffset ≤ content.length
  partStart : s.verifyPartStart = q * size
  partStart_le : s.verifyPartStart ≤ s.verifyOffset
  lt_partEnd : s.verifyOffset < s.verifyPartStart + size
  partHashes : s.partHashes = digests size content q
  ctx : Md4Holds s.md4PartCtx ((content.take s.verifyOffset).drop s.verifyPartStart)

variable {size q k : Nat} {content data fileHash : Bytes} {s : Verify}

theorem digests_succ (size : Nat) (content : Bytes) (q : Nat) :
    digests size content (q + 1) =
      digests size content q ++ md4 ((content.drop (q * size)).take size) := by
  rw [digests, List.range_succ, List.flatMap_append, List.flatMap_singleton, digests]

theorem length_digests (size : Nat) (content : Bytes) (q : Nat) :
    (digests size content q).length = 16 * q := by
  induction q with
  | zero => rfl
  | succ q ih =>
    rw [digests_succ, List.length_append, length_md4, ih]
    omega

theorem Verified.start (hpart : 0 < size) (h : s.verifyStarted = false) :
    Verified size content s.start 0 := by
  rw [Verify.start, if_neg (by rw [h]; exact Bool.false_ne_true)]
  refine ⟨rfl, Nat.zero_le _, (Nat.zero_mul _).symm, Nat.le_refl 0, ?_, rfl, .init⟩
  rwa [Nat.zero_add]

/-- What has been read is hashed, wherever it is cut by parts. -/
theorem Verified.feed (h : Verified size content s q)
    (hdata : data = (content.drop s.verifyOffset).take data.length) (hk : data.length ≤ k)
    (hpart : 0 < size) :
    ∃ q', Verified size content (feedLoop size k data s) q' ∧
      (feedLoop size k data s).verifyOffset = s.verifyOffset + data.length := by
  induction k generalizing data s q with
  | zero =>
    obtain rfl := List.length_eq_zero_iff.mp (Nat.le_zero.mp hk)
    exact ⟨q, h, rfl⟩
  | succ k ih =>
    rw [feedLoop]
    split
    next hnil =>
      rw [hnil]
      exact ⟨q, h, rfl⟩
    next hne =>
      have hpos := List.length_pos_of_ne_nil hne
      have hlt := h.lt_partEnd
      have hle := h.partStart_le
      have hoffset := h.offset_le
      have hlen : data.length ≤ content.length - s.verifyOffset := by
        have := congrArg List.length hdata
        rw [List.length_take, List.length_drop] at this
        omega
      generalize havail : min data.length (s.verifyPartStart + size - s.verifyOffset) = avail
      dsimp only
      rw [havail]
      have htake : data.take avail = (content.drop s.verifyOffset).take avail := by
        rw [hdata, List.take_take]
        congr 1
        omega
      have hrest : data.drop avail =
          (content.drop (s.verifyOffset + avail)).take (data.drop avail).length := by
        rw [List.length_drop, ← List.drop_drop, ← List.drop_take, ← hdata]
      have hbytes : (content.take (s.verifyOffset + avail)).drop s.verifyPartStart =
          (content.take s.verifyOffset).drop s.verifyPartStart ++ data.take avail := by
        rw [List.take_add, List.drop_append_of_le_length (by rw [List.length_take]; omega), htake]
      have hctx := h.ctx.update (data.take avail)
      rw [← hbytes] at hctx
      have hrestlen : (data.drop avail).length ≤ k := by
        rw [List.length_drop]
        omega
      have hsum : s.verifyOffset + avail + (data.drop avail).length =
          s.verifyOffset + data.length := by
        rw [List.length_drop]
        omega
      split
      next hend =>
        have hq : Verified size content { s with
            md4PartCtx := (finalDigest (md4Update s.md4PartCtx (data.take avail))).2
            partHashes :=
              s.partHashes ++ (finalDigest (md4Update s.md4PartCtx (data.take avail))).1
            verifyOffset := s.verifyOffset + avail
            verifyPartStart := s.verifyPartStart + size } (q + 1) := by
          refine ⟨h.started, ?_, ?_, Nat.le_of_eq hend.symm, ?_, ?_, ?_⟩
          · dsimp only
            omega
          · dsimp only
            rw [h.partStart, Nat.succ_mul]
          · dsimp only
            omega
          · dsimp only
            rw [finalDigest, hctx.final, hend, h.partHashes, digests_succ, List.drop_take,
              h.partStart, Nat.add_sub_cancel_left]
          · dsimp only
            rw [hend, List.drop_of_length_le (by rw [List.length_take]; omega)]
            exact .init
        obtain ⟨q', hq', hoffset'⟩ := ih hq hrest hrestlen
        exact ⟨q', hq', hoffset'.trans hsum⟩
      next hend =>
        have hq : Verified size content { s with
            md4PartCtx := md4Update s.md4PartCtx (data.take avail)
            verifyOffset := s.verifyOffset + avail } q := by
          refine ⟨h.started, ?_, h.partStart, Nat.le_add_right_of_le hle, ?_, h.partHashes, hctx⟩
          · dsimp only
            omega
          · dsimp only at hend ⊢
            omega
        obtain ⟨q', hq', hoffset'⟩ := ih hq hrest hrestlen
        exact ⟨q', hq', hoffset'.trans hsum⟩

/-! ## The verdict -/

theorem md4_eq (m : Bytes) : md4 m = md4Digest m := by
  rw [md4, md4Digest, md4Transform_eq, digestBytes_eq]
  rfl

theorem computeMd4_eq (m : Bytes) : computeMd4 m = md4 m :=
  (Md4Holds.init.update m).final

theorem digests_eq_parts (size : Nat) (content : Bytes) :
    digests size content ((content.length + size - 1) / size) =
      (parts size content).flatMap md4Digest := by
  rw [digests, parts, List.flatMap_map]
  congr 1
  funext i
  exact md4_eq _

/-- At the end of the file, the digests are those of all parts. -/
theorem Verified.finish (h : Verified size content s q) (hend : s.verifyOffset = content.length) :
    (finishPart content.length s).partHashes =
      digests size content ((content.length + size - 1) / size) := by
  have hlt := h.lt_partEnd
  have hle := h.partStart_le
  have hstart := h.partStart
  have hctx := h.ctx
  rw [hend, List.take_length, hstart] at hctx
  rw [hstart, hend] at hlt hle
  have hsucc : (q + 1) * size = q * size + size := Nat.succ_mul ..
  have hsucc' : (q + 1 + 1) * size = (q + 1) * size + size := Nat.succ_mul ..
  rw [finishPart, hstart]
  split
  next hmore =>
    have hcount : (content.length + size - 1) / size = q + 1 :=
      Nat.div_eq_of_lt_le (by omega) (by omega)
    have htake : (content.drop (q * size)).take size = content.drop (q * size) :=
      List.take_of_length_le (by rw [List.length_drop]; omega)
    rw [hcount, digests_succ, htake]
    dsimp only
    rw [finalDigest, hctx.final, h.partHashes]
  next hdone =>
    have hcount : (content.length + size - 1) / size = q :=
      Nat.div_eq_of_lt_le (by omega) (by omega)
    rw [hcount, h.partHashes]

theorem computed_eq (hne : content ≠ [])
    (h : s.partHashes = digests partSize content ((content.length + partSize - 1) / partSize)) :
    computed s = lowerHex (ed2kHash content) := by
  have hpos := List.length_pos_of_ne_nil hne
  have hpart : 0 < partSize := by decide
  have hsixteen : 16 * ((content.length + partSize - 1) / partSize) / 16 =
      (content.length + partSize - 1) / partSize := Nat.mul_div_cancel_left _ (by decide)
  rw [computed, h, length_digests, hsixteen, ed2kHash, ← digests_eq_parts]
  generalize partSize = size at hpart ⊢
  by_cases hle : content.length ≤ size
  · have hcount : (content.length + size - 1) / size = 1 :=
      Nat.div_eq_of_lt_le (by omega) (by omega)
    rw [hcount, if_pos (Nat.le_refl 1), if_pos hle, toHex_eq, digests_succ, Nat.zero_mul,
      List.drop_zero, List.take_of_length_le hle, md4_eq]
    rfl
  · have hcount : ¬(content.length + size - 1) / size ≤ 1 := by
      rw [Nat.not_le, Nat.lt_iff_add_one_le, Nat.le_div_iff_mul_le hpart]
      omega
    rw [if_neg hcount, if_neg hle, toHex_eq, computeMd4_eq, md4_eq]

/-- How the verification ends. -/
def verdict (content fileHash : Bytes) : Verdict :=
  if fileHash = lowerHex (ed2kHash content) then .passed
  else .thrown "ED2K file hash verification failed — downloaded data is corrupt"

/-- The step lemma: a call reads on, or it ends with the verdict. -/
theorem Verified.tick {n : Nat → Nat} (h : Verified partSize content s q) (fileHash : Bytes)
    (hlt : s.verifyOffset < content.length) (hn : ∀ len, 0 < len → 1 ≤ n len ∧ n len ≤ len) :
    (∃ s' q', verifyHash content fileHash n s = (.more, s') ∧ Verified partSize content s' q' ∧
      s.verifyOffset < s'.verifyOffset ∧ s'.verifyOffset < content.length) ∨
    (verifyHash content fileHash n s).1 = verdict content fileHash := by
  have hstart : s.start = s := if_pos h.started
  have hread : 0 < min VERIFY_CHUNK (content.length - s.verifyOffset) := by
    have hchunk : 0 < VERIFY_CHUNK := by decide
    omega
  have hle := Nat.min_le_right VERIFY_CHUNK (content.length - s.verifyOffset)
  rw [verifyHash, hstart]
  dsimp only
  generalize min VERIFY_CHUNK (content.length - s.verifyOffset) = toRead at hread hle ⊢
  obtain ⟨hone, hmax⟩ := hn toRead hread
  have hlen : ((content.drop s.verifyOffset).take (n toRead)).length = n toRead := by
    rw [List.length_take, List.length_drop]
    omega
  rw [if_neg (by omega), if_pos hread]
  obtain ⟨q', hq, hoffset⟩ := h.feed (k := ((content.drop s.verifyOffset).take (n toRead)).length)
    (by rw [hlen]) (Nat.le_refl _) (by decide : 0 < partSize)
  have hoffset := hoffset.trans (Nat.add_left_cancel_iff.mpr hlen)
  generalize feedLoop partSize _ _ s = s' at hq hoffset ⊢
  by_cases hmore : s'.verifyOffset < content.length
  · rw [if_pos hmore]
    exact .inl ⟨s', q', rfl, hq, by omega, hmore⟩
  · have hend : s'.verifyOffset = content.length := Nat.le_antisymm hq.offset_le (by omega)
    have hne : content ≠ [] := List.ne_nil_of_length_pos (by omega)
    rw [if_neg hmore, computed_eq hne (hq.finish hend), verdict]
    by_cases hhash : fileHash = lowerHex (ed2kHash content)
    · rw [if_neg (not_not.mpr hhash.symm), if_pos hhash]
      exact .inr rfl
    · rw [if_pos (Ne.symm hhash), if_neg hhash]
      exact .inr rfl

/-- The run lemma. -/
theorem Verified.ticks {reads : Nat → Nat → Nat} (h : Verified partSize content s q)
    (fileHash : Bytes) (hlt : s.verifyOffset < content.length)
    (hreads : ∀ i len, 0 < len → 1 ≤ reads i len ∧ reads i len ≤ len)
    (hk : content.length - s.verifyOffset ≤ k) :
    verifyTicks content fileHash k reads s = verdict content fileHash := by
  induction k generalizing s q reads with
  | zero => omega
  | succ k ih =>
    rw [verifyTicks]
    rcases h.tick fileHash hlt (hreads 0) with
      ⟨s', q', hcall, hq', hgrow, hlt'⟩ | hverdict
    · rw [hcall]
      exact ih hq' hlt' (fun i => hreads (i + 1)) (by omega)
    · generalize verifyHash content fileHash (reads 0) s = p at hverdict
      obtain ⟨v, s'⟩ := p
      obtain rfl : v = verdict content fileHash := hverdict
      rw [verdict]
      by_cases hhash : fileHash = lowerHex (ed2kHash content)
      · rw [if_pos hhash]
      · rw [if_neg hhash]

theorem verifyHash_start (content fileHash : Bytes) (n : Nat → Nat) (s : Verify) :
    verifyHash content fileHash n s.start = verifyHash content fileHash n s := by
  have hstart : s.start.start = s.start := by
    unfold Verify.start
    split
    · rfl
    · exact if_pos rfl
  rw [verifyHash, verifyHash, hstart]

/-- **The whole-file hash.** After as many calls as the file has bytes, at most, the hash is
accepted or refused. -/
theorem verifyTicks_eq (hne : content ≠ []) (hs : s.verifyStarted = false)
    {reads : Nat → Nat → Nat} (hreads : ∀ i len, 0 < len → 1 ≤ reads i len ∧ reads i len ≤ len)
    (fileHash : Bytes) :
    verifyTicks content fileHash content.length reads s =
      if fileHash = lowerHex (ed2kHash content) then .passed
      else .thrown "ED2K file hash verification failed — downloaded data is corrupt" := by
  have hstart : Verified partSize content s.start 0 := .start (by decide) hs
  have hoffset : s.start.verifyOffset = 0 := by
    rw [Verify.start, if_neg (by rw [hs]; exact Bool.false_ne_true)]
  have hpos := List.length_pos_of_ne_nil hne
  have hrun := hstart.ticks fileHash (k := content.length) (by omega) hreads
    (by omega)
  obtain ⟨len, hlen⟩ := Nat.exists_eq_succ_of_ne_zero hpos.ne'
  rw [hlen, verifyTicks, verifyHash_start, ← verifyTicks, ← hlen] at hrun
  exact hrun

theorem lowerHex_ne_nil (content : Bytes) : lowerHex (ed2kHash content) ≠ [] := by
  have hsixteen : (ed2kHash content).length = 16 := by
    rw [ed2kHash]
    split
    · rw [← md4_eq, length_md4]
    · rw [← md4_eq, length_md4]
  obtain ⟨c, s, hs⟩ := List.exists_cons_of_length_pos (by omega : 0 < (ed2kHash content).length)
  rw [hs, lowerHex, List.flatMap_cons]
  exact List.append_ne_nil_of_left_ne_nil (List.cons_ne_nil _ _) _

/-- A file of two parts, of which a read gives at most half of what is asked for. -/
theorem verifyTicks_eq_halves :
    let content : Bytes := List.replicate (partSize + 10) 0x61
    let start : Verify := ⟨md4Init, [], 0, 0, false⟩
    partSize < content.length ∧
      verifyTicks content (lowerHex (ed2kHash content)) content.length
        (fun _ len => (len + 1) / 2) start = .passed ∧
      verifyTicks content [] content.length (fun _ len => (len + 1) / 2) start =
        .thrown "ED2K file hash verification failed — downloaded data is corrupt" := by
  intro content start
  have hlen : content.length = partSize + 10 := List.length_replicate
  have hne : content ≠ [] := List.ne_nil_of_length_pos (by omega)
  have hreads : ∀ i len : Nat, 0 < len → 1 ≤ (len + 1) / 2 ∧ (len + 1) / 2 ≤ len := by
    intro _ len hpos
    omega
  refine ⟨by omega, ?_, ?_⟩
  · exact (verifyTicks_eq hne rfl hreads _).trans (if_pos rfl)
  · exact (verifyTicks_eq hne rfl hreads _).trans (if_neg (lowerHex_ne_nil content).symm)

end FluxCore.Ed2k.Verification
