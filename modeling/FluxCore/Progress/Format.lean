import FluxCore.Progress.Loading
import Mathlib.Tactic.Ring

/-!
# The format of the control file

What each of the reads of `load()` accepts, as bytes in front of the rest of the file: a read goes
through exactly where the file continues with the encoding of a valid value
(`readHeader_eq_ok`, `readBitfield_eq_ok`, `readPieces_eq_ok`).
-/

namespace FluxCore.Progress

open Bitfield (BitfieldMan)

@[simp] theorem length_int (v w n : Nat) : (int v w n).length = w := by
  unfold int
  split <;> simp

theorem intValue_int {v w n : Nat} (h : n < 256 ^ w) : intValue v (int v w n) = n := by
  unfold int intValue
  split
  · rw [List.reverse_reverse, octetsValue_octets_of_lt h]
  · exact octetsValue_octets_of_lt h

theorem int_intValue (v : Nat) (bs : List UInt8) : int v bs.length (intValue v bs) = bs := by
  unfold int intValue
  split
  · have := octets_octetsValue bs.reverse
    rw [List.length_reverse] at this
    rw [this, List.reverse_reverse]
  · exact octets_octetsValue bs

theorem intValue_lt (v : Nat) (bs : List UInt8) : intValue v bs < 256 ^ bs.length := by
  unfold intValue
  split
  · simpa using octetsValue_lt bs.reverse
  · exact octetsValue_lt bs

theorem int_one (w n : Nat) : int 1 w n = octets w n := rfl

namespace Read

variable {α β : Type} {x : Read α} {f : α → Read β} {r r' : Reader} {a : α} {b : β}
  {bs rest : List UInt8} {qs : List Request} {n v w : Nat}

theorem bind_eq_ok : (x >>= f) r = (.ok b, r') ↔
    ∃ a r₁, x r = (.ok a, r₁) ∧ f a r₁ = (.ok b, r') := by
  rw [bind_eq]
  rcases x r with ⟨_ | a, r₁⟩ <;> simp

theorem bind_of_ok {r₁ : Reader} (h : x r = (.ok a, r₁)) : (x >>= f) r = f a r₁ := by
  rw [bind_eq, h]

theorem bind_of_error {e : LoadError} {r₁ : Reader} (h : x r = (.error e, r₁)) :
    (x >>= f) r = (.error e, r₁) := by
  rw [bind_eq, h]

theorem check_of_pos {p : Prop} [Decidable p] {e : LoadError} (h : p) :
    check p e r = (.ok ⟨h⟩, r) := by
  rw [check, dif_pos h]
  rfl

theorem check_of_neg {p : Prop} [Decidable p] {e : LoadError} (h : ¬p) :
    check p e r = (.error e, r) := by
  rw [check, dif_neg h]
  rfl

theorem pure_eq_ok {a' : α} : (pure a : Read α) r = (.ok a', r') ↔ a' = a ∧ r' = r := by
  change (Except.ok a, r) = _ ↔ _
  rw [Prod.mk.injEq, Except.ok.injEq, eq_comm, @eq_comm _ r]

theorem throw_eq_ok {e : LoadError} : ¬(throw e : Read α) r = (.ok a, r') := nofun

theorem check_eq_ok {p : Prop} [Decidable p] {e : LoadError} {u : PLift p} :
    check p e r = (.ok u, r') ↔ r' = r := by
  unfold check
  rw [dif_pos u.down, pure_eq_ok]
  exact and_iff_right rfl

theorem request_eq_ok {q : Request} {u : Unit} :
    request q ⟨rest, qs⟩ = (.ok u, r') ↔ r' = ⟨rest, qs ++ [q]⟩ := by
  rw [request, Prod.mk.injEq, and_iff_right rfl, eq_comm]

theorem read_eq_ok : read n ⟨rest, qs⟩ = (.ok bs, r') ↔
    bs.length = n ∧ ∃ rest', rest = bs ++ rest' ∧ r' = ⟨rest', qs⟩ := by
  unfold read
  constructor
  · intro h
    split at h
    · next hle =>
      cases h
      exact ⟨List.length_take_of_le hle, _, (List.take_append_drop n rest).symm, rfl⟩
    · cases h
  · rintro ⟨rfl, rest', rfl, rfl⟩
    simp

theorem int_eq_ok : Read.int v w ⟨rest, qs⟩ = (.ok n, r') ↔
    n < 256 ^ w ∧ ∃ rest', rest = Progress.int v w n ++ rest' ∧ r' = ⟨rest', qs⟩ := by
  rw [Read.int, bind_eq_ok]
  constructor
  · rintro ⟨bs, r₁, hread, hpure⟩
    obtain ⟨rfl, rest', rfl, rfl⟩ := read_eq_ok.mp hread
    obtain ⟨rfl, rfl⟩ := pure_eq_ok.mp hpure
    exact ⟨intValue_lt v bs, rest', by rw [int_intValue], rfl⟩
  · rintro ⟨hn, rest', rfl, rfl⟩
    exact ⟨_, _, read_eq_ok.mpr ⟨length_int .., rest', rfl, rfl⟩,
      pure_eq_ok.mpr ⟨(intValue_int hn).symm, rfl⟩⟩

end Read

open Read

/-! ## The header -/

namespace Header

variable (ctx : Context) (h : Header)

def bytes : List UInt8 :=
  [0, UInt8.ofNat h.version] ++ h.extension ++ int h.version 4 h.savedInfoHash.length ++
    h.savedInfoHash ++ int h.version 4 h.pieceLength ++ int h.version 8 ctx.totalLength ++
    int h.version 8 h.uploadLength

/-- The header of a file that is for the download. -/
structure Valid : Prop where
  version_le : h.version ≤ 1
  length_extension : h.extension.length = 4
  length_infoHash : h.savedInfoHash.length ≤ INFO_HASH_LENGTH
  infoHash : ctx.infoHashCheckEnabled h.extension = true →
    ctx.torrent.map InfoHash.bytes = some h.savedInfoHash
  pieceLength_pos : 0 < h.pieceLength
  pieceLength_lt : h.pieceLength < 256 ^ 4
  uploadLength_lt : h.uploadLength < 256 ^ 8

end Header

variable {ctx : Context} {h : Header} {file rest bs : List UInt8} {qs : List Request}
  {r r' : Reader} {v n : Nat}

theorem readVersion_eq_ok : Context.readVersion ⟨file, qs⟩ = (.ok v, r') ↔
    v ≤ 1 ∧ ∃ rest, file = [0, UInt8.ofNat v] ++ rest ∧ r' = ⟨rest, qs⟩ := by
  rw [Context.readVersion, bind_eq_ok]
  constructor
  · rintro ⟨bs, r₁, hread, hrest⟩
    obtain ⟨-, rest, rfl, rfl⟩ := read_eq_ok.mp hread
    split_ifs at hrest with h0 h1
    · obtain ⟨rfl, rfl⟩ := pure_eq_ok.mp hrest
      exact ⟨Nat.zero_le _, rest, by rw [h0]; rfl, rfl⟩
    · obtain ⟨rfl, rfl⟩ := pure_eq_ok.mp hrest
      exact ⟨le_rfl, rest, by rw [h1]; rfl, rfl⟩
    · exact absurd hrest throw_eq_ok
  · rintro ⟨hv, rest, rfl, rfl⟩
    refine ⟨[0, UInt8.ofNat v], _, read_eq_ok.mpr ⟨rfl, rest, rfl, rfl⟩, ?_⟩
    obtain rfl | rfl : v = 0 ∨ v = 1 := by omega
    · exact pure_eq_ok.mpr ⟨rfl, rfl⟩
    · exact pure_eq_ok.mpr ⟨rfl, rfl⟩

/-- The two checks of the info hash, as one about the bytes. -/
theorem readInfoHash_eq_ok {extension : List UInt8} :
    ctx.readInfoHash v extension ⟨file, qs⟩ = (.ok bs, r') ↔
      (bs.length ≤ INFO_HASH_LENGTH ∧ (ctx.infoHashCheckEnabled extension = true →
        ctx.torrent.map InfoHash.bytes = some bs)) ∧
      ∃ rest, file = int v 4 bs.length ++ (bs ++ rest) ∧ r' = ⟨rest, qs⟩ := by
  have hpow : (20 : Nat) < 256 ^ 4 := by decide
  rw [Context.readInfoHash]
  simp only [bind_eq_ok]
  constructor
  · rintro ⟨n, r₁, hint, ⟨hlen⟩, r₂, hcheck, bs', r₃, hread, ⟨hhash⟩, r₄, hcheck', hpure⟩
    obtain ⟨-, rest₁, rfl, rfl⟩ := int_eq_ok.mp hint
    cases check_eq_ok.mp hcheck
    obtain ⟨rfl, rest, rfl, rfl⟩ := read_eq_ok.mp hread
    cases check_eq_ok.mp hcheck'
    obtain ⟨rfl, rfl⟩ := pure_eq_ok.mp hpure
    exact ⟨⟨hlen.1, hhash⟩, rest, rfl, rfl⟩
  · rintro ⟨⟨hlen, hhash⟩, rest, rfl, rfl⟩
    have hexact : bs.length = INFO_HASH_LENGTH ∨ ctx.infoHashCheckEnabled extension = false := by
      cases hc : ctx.infoHashCheckEnabled extension with
      | false => exact .inr rfl
      | true =>
        obtain ⟨infoHash, -, rfl⟩ := Option.map_eq_some_iff.mp (hhash hc)
        exact .inl infoHash.length_bytes
    exact ⟨_, _, int_eq_ok.mpr ⟨lt_of_le_of_lt hlen hpow, _, rfl, rfl⟩, ⟨hlen, hexact⟩, _,
      check_eq_ok.mpr rfl, bs, _, read_eq_ok.mpr ⟨rfl, rest, rfl, rfl⟩, ⟨hhash⟩, _,
      check_eq_ok.mpr rfl, pure_eq_ok.mpr ⟨rfl, rfl⟩⟩

theorem readHeader_eq_ok : ctx.readHeader ⟨file, qs⟩ = (.ok h, r') ↔
    h.Valid ctx ∧ ∃ rest, file = h.bytes ctx ++ rest ∧ r' = ⟨rest, qs⟩ := by
  rw [Context.readHeader]
  simp only [bind_eq_ok]
  constructor
  · rintro ⟨v, r₁, hversion, ext, r₂, hext, hash, r₃, hhash, pl, r₄, hpl, ⟨hpos⟩, r₅, hcheck, tl,
      r₆, htl, ⟨htotal⟩, r₇, hcheck', ul, r₈, hul, hpure⟩
    obtain ⟨hv, rest, rfl, rfl⟩ := readVersion_eq_ok.mp hversion
    obtain ⟨hlen, rest, rfl, rfl⟩ := read_eq_ok.mp hext
    obtain ⟨⟨hle, hinfo⟩, rest, rfl, rfl⟩ := readInfoHash_eq_ok.mp hhash
    obtain ⟨hpllt, rest, rfl, rfl⟩ := int_eq_ok.mp hpl
    cases check_eq_ok.mp hcheck
    obtain ⟨-, rest, rfl, rfl⟩ := int_eq_ok.mp htl
    cases check_eq_ok.mp hcheck'
    obtain ⟨hullt, rest, rfl, rfl⟩ := int_eq_ok.mp hul
    obtain ⟨rfl, rfl⟩ := pure_eq_ok.mp hpure
    subst htotal
    exact ⟨⟨hv, hlen, hle, hinfo, Nat.pos_of_ne_zero hpos, hpllt, hullt⟩, rest,
      by simp [Header.bytes], rfl⟩
  · rintro ⟨⟨hv, hlen, hle, hinfo, hpos, hpllt, hullt⟩, rest, rfl, rfl⟩
    have htotal : ctx.totalLength < 256 ^ 8 := ctx.totalLength_lt.trans (by decide)
    simp only [Header.bytes, List.append_assoc]
    exact ⟨_, _, readVersion_eq_ok.mpr ⟨hv, _, rfl, rfl⟩, _, _,
      read_eq_ok.mpr ⟨hlen, _, rfl, rfl⟩, _, _,
      readInfoHash_eq_ok.mpr ⟨⟨hle, hinfo⟩, _, rfl, rfl⟩, _, _,
      int_eq_ok.mpr ⟨hpllt, _, rfl, rfl⟩, ⟨hpos.ne'⟩, _, check_eq_ok.mpr rfl, _, _,
      int_eq_ok.mpr ⟨htotal, _, rfl, rfl⟩, ⟨rfl⟩, _, check_eq_ok.mpr rfl, _, _,
      int_eq_ok.mpr ⟨hullt, _, rfl, rfl⟩, pure_eq_ok.mpr ⟨rfl, rfl⟩⟩

/-! ## The bit field -/

theorem readBitfield_eq_ok : ctx.readBitfield h ⟨file, qs⟩ = (.ok bs, r') ↔
    bs.length = ctx.expectedBitfieldLength h ∧
      ∃ rest, file = int h.version 4 bs.length ++ (bs ++ rest) ∧
        r' = ⟨rest, qs ++ [.bitfield bs.length (ctx.savedPieces h)]⟩ := by
  rw [Context.readBitfield]
  simp only [bind_eq_ok]
  constructor
  · rintro ⟨n, r₁, hint, ⟨heq⟩, r₂, hcheck, u, r₃, hreq, hread⟩
    obtain ⟨-, rest, rfl, rfl⟩ := int_eq_ok.mp hint
    cases check_eq_ok.mp hcheck
    cases request_eq_ok.mp hreq
    obtain ⟨rfl, rest, rfl, rfl⟩ := read_eq_ok.mp hread
    exact ⟨heq.symm, rest, rfl, rfl⟩
  · rintro ⟨hlen, rest, rfl, rfl⟩
    have hlt : bs.length < 256 ^ 4 := hlen.trans_lt (Nat.mod_lt _ (by decide))
    exact ⟨_, _, int_eq_ok.mpr ⟨hlt, _, rfl, rfl⟩, ⟨hlen.symm⟩, _, check_eq_ok.mpr rfl, (), _,
      request_eq_ok.mpr rfl, read_eq_ok.mpr ⟨rfl, rest, rfl, rfl⟩⟩

/-! ## The pieces in flight -/

namespace Piece

/-- Nothing is known of the piece but its blocks, as of one that was just read. -/
def Plain (p : Piece) : Prop := p = (new p.getLength).setBitfield p.bitfield.bitfield.bytes

theorem bytes_setBitfield (p : Piece) {bytes : List UInt8}
    (h : bytes.length = p.getBitfieldLength) :
    (p.setBitfield bytes).bitfield.bitfield.bytes = bytes :=
  p.bitfield.bytes_setBitfield (h.trans p.bitfield.bitfield.length_bytes)

theorem getBitfieldLength_eq (p : Piece) :
    p.getBitfieldLength = (Storage.blockCount Storage.BLOCK_LENGTH p.getLength + 7) / 8 := by
  rw [getBitfieldLength, p.bitfield.bitfield.length_bytes, p.bitfield.blocks_eq,
    p.blockLength_bitfield]
  rfl

theorem getBitfieldLength_new (p : Piece) : (new p.getLength).getBitfieldLength =
    p.getBitfieldLength := by
  rw [getBitfieldLength_eq, getBitfieldLength_eq]
  rfl

theorem blocks_eq (p : Piece) :
    p.bitfield.blocks = Storage.blockCount Storage.BLOCK_LENGTH p.getLength := by
  rw [p.bitfield.blocks_eq, p.blockLength_bitfield]
  rfl

theorem blocks_new (p : Piece) : (new p.getLength).bitfield.blocks = p.bitfield.blocks :=
  (blocks_eq _).trans p.blocks_eq.symm

theorem blocks_setBitfield (p : Piece) (bytes : List UInt8) :
    (p.setBitfield bytes).bitfield.blocks = p.bitfield.blocks := p.bitfield.blocks_setBitfield bytes

theorem getBitfieldLength_le (p : Piece) : p.getBitfieldLength ≤ p.getLength + 1 := by
  rw [getBitfieldLength_eq, Storage.blockCount, Storage.BLOCK_LENGTH]
  split <;> omega

/-- The part of a control file about a piece in flight. -/
def bytes (v index : Nat) (p : Piece) : List UInt8 :=
  int v 4 index ++ int v 4 p.getLength ++ int v 4 p.getBitfieldLength ++ p.bitfield.bitfield.bytes

/-- What reading it asks for. -/
def requests (p : Piece) : List Request :=
  [.bitfieldMan Storage.BLOCK_LENGTH, .bitfield p.getBitfieldLength p.bitfield.blocks]

end Piece

namespace InFlightPiece

variable (p : InFlightPiece ctx)

/-- The piece can be in a control file. -/
structure Valid : Prop where
  index_lt : p.index < 256 ^ 4
  plain : p.piece.Plain

def bytes (v : Nat) : List UInt8 := p.piece.bytes v p.index

theorem length_lt : p.piece.getLength < 256 ^ 4 :=
  p.length_le.trans_lt (ctx.pieceLength_lt.trans (by decide))

theorem bitfieldLength_lt : p.piece.getBitfieldLength < 256 ^ 4 :=
  (p.piece.getBitfieldLength_le.trans (Nat.succ_le_succ p.length_le)).trans_lt
    ((Nat.succ_lt_succ ctx.pieceLength_lt).trans (by decide))

end InFlightPiece

theorem readPiece_eq_ok {p : InFlightPiece ctx} : ctx.readPiece v ⟨file, qs⟩ = (.ok p, r') ↔
    p.Valid ∧ ∃ rest, file = p.bytes v ++ rest ∧ r' = ⟨rest, qs ++ p.piece.requests⟩ := by
  rw [Context.readPiece]
  simp only [bind_eq_ok]
  constructor
  · rintro ⟨index, r₁, hindex, ⟨hlt⟩, r₂, hcheck, length, r₃, hlength, ⟨hle⟩, r₄, hcheck', u, r₅,
      hreq, n, r₆, hn, ⟨heq⟩, r₇, hcheck'', u', r₈, hreq', bits, r₉, hbits, hpure⟩
    obtain ⟨hidx, rest, rfl, rfl⟩ := int_eq_ok.mp hindex
    cases check_eq_ok.mp hcheck
    obtain ⟨-, rest, rfl, rfl⟩ := int_eq_ok.mp hlength
    cases check_eq_ok.mp hcheck'
    cases request_eq_ok.mp hreq
    obtain ⟨-, rest, rfl, rfl⟩ := int_eq_ok.mp hn
    cases check_eq_ok.mp hcheck''
    cases request_eq_ok.mp hreq'
    obtain ⟨rfl, rest, rfl, rfl⟩ := read_eq_ok.mp hbits
    obtain ⟨rfl, rfl⟩ := pure_eq_ok.mp hpure
    have hbytes := (Piece.new length).bytes_setBitfield heq.symm
    have hlen : ((Piece.new length).setBitfield bits).getLength = length :=
      Piece.getLength_setBitfield ..
    have hblen : ((Piece.new length).setBitfield bits).getBitfieldLength = bits.length := by
      rw [Piece.getBitfieldLength, hbytes]
    refine ⟨⟨hidx, by rw [Piece.Plain, hbytes, hlen]⟩, rest, ?_, ?_⟩
    · simp [InFlightPiece.bytes, Piece.bytes, hlen, hblen, hbytes]
    · rw [Piece.requests, hblen, Piece.blocks_setBitfield, List.append_assoc]
      rfl
  · rintro ⟨⟨hindex, hplain⟩, rest, rfl, rfl⟩
    have hlen := p.piece.getBitfieldLength_new
    simp only [InFlightPiece.bytes, Piece.bytes, List.append_assoc]
    refine ⟨_, _, int_eq_ok.mpr ⟨hindex, _, rfl, rfl⟩, ⟨p.index_lt⟩, _, check_eq_ok.mpr rfl, _, _,
      int_eq_ok.mpr ⟨p.length_lt, _, rfl, rfl⟩, ⟨p.length_le⟩, _, check_eq_ok.mpr rfl, (), _,
      request_eq_ok.mpr rfl, _, _, int_eq_ok.mpr ⟨p.bitfieldLength_lt, _, rfl, rfl⟩, ⟨hlen⟩, _,
      check_eq_ok.mpr rfl, (), _, request_eq_ok.mpr rfl, _, _,
      read_eq_ok.mpr ⟨rfl, rest, rfl, rfl⟩, pure_eq_ok.mpr ⟨?_, ?_⟩⟩
    · obtain ⟨index, piece, hi, hl⟩ := p
      simpa [Piece.Plain] using hplain
    · rw [Piece.requests, p.piece.blocks_new, List.append_assoc]
      rfl

/-- All of the pieces are read, one behind the other. -/
theorem readPieces_eq_ok {ps : List (InFlightPiece ctx)} :
    ctx.readPieces v n ⟨file, qs⟩ = (.ok ps, r') ↔
      (ps.length = n ∧ ∀ p ∈ ps, p.Valid) ∧ ∃ rest, file = (ps.flatMap fun p => p.bytes v) ++ rest ∧
        r' = ⟨rest, qs ++ ps.flatMap fun p => p.piece.requests⟩ := by
  induction n generalizing file qs ps r' with
  | zero =>
    rw [Context.readPieces, pure_eq_ok]
    constructor
    · rintro ⟨rfl, rfl⟩
      exact ⟨⟨rfl, nofun⟩, file, rfl, by simp⟩
    · rintro ⟨⟨hlen, -⟩, rest, rfl, rfl⟩
      obtain rfl := List.eq_nil_of_length_eq_zero hlen
      exact ⟨rfl, by simp⟩
  | succ n ih =>
    rw [Context.readPieces]
    simp only [bind_eq_ok]
    constructor
    · rintro ⟨p, r₁, hp, ps', r₂, hps, hpure⟩
      obtain ⟨hvalid, rest, rfl, rfl⟩ := readPiece_eq_ok.mp hp
      obtain ⟨⟨hlen, hall⟩, rest, rfl, rfl⟩ := ih.mp hps
      obtain ⟨rfl, rfl⟩ := pure_eq_ok.mp hpure
      exact ⟨⟨by rw [List.length_cons, hlen], List.forall_mem_cons.mpr ⟨hvalid, hall⟩⟩, rest,
        by simp, by simp⟩
    · rintro ⟨⟨hlen, hall⟩, rest, rfl, rfl⟩
      obtain ⟨p, ps, rfl⟩ := List.exists_cons_of_length_eq_add_one hlen
      obtain ⟨hvalid, hall⟩ := List.forall_mem_cons.mp hall
      exact ⟨p, _, readPiece_eq_ok.mpr ⟨hvalid, _, by rw [List.flatMap_cons, List.append_assoc], rfl⟩,
        ps, _, ih.mpr ⟨⟨Nat.succ.inj hlen, hall⟩, rest, rfl, rfl⟩,
        pure_eq_ok.mpr ⟨rfl, by simp⟩⟩

theorem readInFlightPieces_eq_ok {ps : List (InFlightPiece ctx)} :
    ctx.readInFlightPieces v ⟨file, qs⟩ = (.ok ps, r') ↔
      (ps.length < 256 ^ 4 ∧ ∀ p ∈ ps, p.Valid) ∧
      ∃ rest, file = int v 4 ps.length ++ ((ps.flatMap fun p => p.bytes v) ++ rest) ∧
        r' = ⟨rest, qs ++ [.inFlightPieces ps.length] ++ ps.flatMap fun p => p.piece.requests⟩ := by
  rw [Context.readInFlightPieces]
  simp only [bind_eq_ok]
  constructor
  · rintro ⟨n, r₁, hn, u, r₂, hreq, hps⟩
    obtain ⟨hlt, rest, rfl, rfl⟩ := int_eq_ok.mp hn
    cases request_eq_ok.mp hreq
    obtain ⟨⟨rfl, hall⟩, rest, rfl, rfl⟩ := readPieces_eq_ok.mp hps
    exact ⟨⟨hlt, hall⟩, rest, rfl, rfl⟩
  · rintro ⟨⟨hlt, hall⟩, rest, rfl, rfl⟩
    exact ⟨_, _, int_eq_ok.mpr ⟨hlt, _, rfl, rfl⟩, (), _, request_eq_ok.mpr rfl,
      readPieces_eq_ok.mpr ⟨⟨rfl, hall⟩, rest, rfl, rfl⟩⟩

end FluxCore.Progress
