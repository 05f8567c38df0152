import FluxCore.Progress.RoundTrip

/-!
# What a failed load leaves behind

`load` has its effects while it reads. The upload length stays where anything behind the header
fails, and the bit field stays where the pieces in flight are not all there. `Benign` says of the
bytes of a file that neither happens and that no size in it makes `load` ask for more memory than
the download needs; it is exact (`traceless_iff`).
-/

namespace FluxCore.Progress

open Bitfield (BitfieldMan)

variable {ctx : Context}

/-- A request that is due: a bit field as long as its blocks need, a manager of a positive block
length, room for no more pieces than there are. -/
def Request.Fits (ctx : Context) : Request → Prop
  | .bitfield bytes blocks => bytes = (blocks + 7) / 8
  | .bitfieldMan blockLength => 0 < blockLength
  | .inFlightPieces count => count ≤ ctx.getNumPieces

/-- A `load` that throws leaves the state as it was, and none asks for what is not due. -/
def Traceless (s : State ctx) (file : List UInt8) : Prop :=
  ((∃ e, (s.load file).outcome = .threw e) → (s.load file).state = s) ∧
    ∀ q ∈ (s.load file).requests, q.Fits ctx

/-! ## What a read asks for -/

namespace Read

variable {α β : Type} {P : Request → Prop} {x : Read α} {f : α → Read β} {r : Reader}

/-- Whether or not it goes through, it asks for such requests only. -/
def Asks (P : Request → Prop) (x : Read α) : Prop :=
  ∀ r, ∃ new, (x r).2.requests = r.requests ++ new ∧ ∀ q ∈ new, P q

theorem asks_pure (a : α) : Asks P (pure a : Read α) :=
  fun _ => ⟨[], (List.append_nil _).symm, nofun⟩

theorem asks_throw (e : LoadError) : Asks P (throw e : Read α) :=
  fun _ => ⟨[], (List.append_nil _).symm, nofun⟩

theorem asks_check (p : Prop) [Decidable p] (e : LoadError) : Asks P (check p e) := by
  unfold check
  split
  exacts [asks_pure _, asks_throw _]

theorem asks_request {q : Request} (h : P q) : Asks P (request q) :=
  fun r => ⟨[q], rfl, by simpa using h⟩

theorem asks_read (n : Nat) : Asks P (read n) := by
  intro r
  refine ⟨[], ?_, nofun⟩
  unfold read
  split <;> simp

theorem asks_bind (hx : Asks P x) (hf : ∀ a, Asks P (f a)) : Asks P (x >>= f) := by
  intro r
  obtain ⟨new, hnew, hP⟩ := hx r
  rw [bind_eq]
  rcases hxr : x r with ⟨_ | a, r₁⟩
  · rw [hxr] at hnew
    exact ⟨new, hnew, hP⟩
  · rw [hxr] at hnew
    obtain ⟨new', hnew', hP'⟩ := hf a r₁
    refine ⟨new ++ new', by rw [hnew', hnew, List.append_assoc], fun q hq => ?_⟩
    rcases List.mem_append.mp hq with hq | hq
    exacts [hP q hq, hP' q hq]

theorem asks_int (v w : Nat) : Asks P (Read.int v w) :=
  asks_bind (asks_read _) fun _ => asks_pure _

/-- A read that asks for nothing. -/
theorem Asks.requests_eq (h : Asks (fun _ => False) x) (r : Reader) :
    (x r).2.requests = r.requests := by
  obtain ⟨new, hnew, hP⟩ := h r
  rw [hnew, List.eq_nil_iff_forall_not_mem.mpr hP, List.append_nil]

end Read

open Read

theorem asks_readHeader (P : Request → Prop) : Asks P ctx.readHeader := by
  refine asks_bind (asks_bind (asks_read _) fun bs => ?_) fun v => asks_bind (asks_read _) fun ext =>
    asks_bind (asks_bind (asks_int _ _) fun n => asks_bind (asks_check _ _) fun _ =>
      asks_bind (asks_read _) fun _ => asks_bind (asks_check _ _) fun _ => asks_pure _) fun _ =>
    asks_bind (asks_int _ _) fun _ => asks_bind (asks_check _ _) fun _ => asks_bind (asks_int _ _)
      fun _ => asks_bind (asks_check _ _) fun _ => asks_bind (asks_int _ _) fun _ => asks_pure _
  split_ifs
  exacts [asks_pure _, asks_pure _, asks_throw _]

/-- A piece in flight asks for its blocks. -/
theorem asks_readPiece (v : Nat) : Asks (Request.Fits ctx) (ctx.readPiece v) := by
  refine asks_bind (asks_int _ _) fun index => asks_bind (asks_check _ _) fun ⟨_⟩ =>
    asks_bind (asks_int _ _) fun length => asks_bind (asks_check _ _) fun ⟨_⟩ =>
    asks_bind (asks_request (by decide : (0 : Int) < Storage.BLOCK_LENGTH)) fun _ =>
    asks_bind (asks_int _ _) fun n => asks_bind (asks_check _ _) fun ⟨hn⟩ =>
    asks_bind (asks_request ?_) fun _ => asks_bind (asks_read _) fun _ => asks_pure _
  exact hn.symm.trans (Piece.new length).bitfield.bitfield.length_bytes

theorem asks_readPieces (v n : Nat) : Asks (Request.Fits ctx) (ctx.readPieces v n) := by
  induction n with
  | zero => exact asks_pure _
  | succ n ih =>
    exact asks_bind (asks_readPiece v) fun _ => asks_bind ih fun _ => asks_pure _

variable (ctx) in
/-- The bit field is asked for where its length is the expected one. -/
theorem requests_readBitfield (h : Header) (rest : List UInt8) (qs : List Request) :
    ((∀ rest', rest ≠ int h.version 4 (ctx.expectedBitfieldLength h) ++ rest') ∧
      (ctx.readBitfield h ⟨rest, qs⟩).2.requests = qs) ∨
    (∃ rest', rest = int h.version 4 (ctx.expectedBitfieldLength h) ++ rest') ∧
      (ctx.readBitfield h ⟨rest, qs⟩).2.requests =
        qs ++ [.bitfield (ctx.expectedBitfieldLength h) (ctx.savedPieces h)] := by
  have hlt : ctx.expectedBitfieldLength h < 256 ^ 4 := Nat.mod_lt _ (by decide)
  rw [Context.readBitfield]
  rcases hint : Read.int h.version 4 ⟨rest, qs⟩ with ⟨e | n, r⟩
  · rw [bind_of_error hint]
    refine .inl ⟨?_, ?_⟩
    · rintro rest' rfl
      cases hint.symm.trans (int_eq_ok.mpr ⟨hlt, rest', rfl, rfl⟩)
    · have := (asks_int h.version 4).requests_eq ⟨rest, qs⟩
      rwa [hint] at this
  · rw [bind_of_ok hint]
    obtain ⟨-, rest', rfl, rfl⟩ := int_eq_ok.mp hint
    by_cases hn : ctx.expectedBitfieldLength h = n
    · subst hn
      refine .inr ⟨⟨rest', rfl⟩, ?_⟩
      rw [bind_of_ok (check_of_pos rfl)]
      exact (asks_read _).requests_eq _
    · rw [bind_of_error (check_of_neg hn)]
      refine .inl ⟨?_, rfl⟩
      rintro rest'' heq
      have hint' := hint.symm.trans (int_eq_ok.mpr ⟨hlt, rest'', heq, rfl⟩)
      exact hn (Except.ok.inj (Prod.mk.inj hint').1).symm

variable (ctx) in
/-- Behind the bit field, the number of pieces in flight is asked for whatever it is. -/
theorem requests_readInFlightPieces (v : Nat) (rest : List UInt8) (qs : List Request) :
    ((∀ n < 256 ^ 4, ∀ rest', rest ≠ int v 4 n ++ rest') ∧
      (ctx.readInFlightPieces v ⟨rest, qs⟩).2.requests = qs) ∨
    ∃ n rest' new, n < 256 ^ 4 ∧ rest = int v 4 n ++ rest' ∧
      (ctx.readInFlightPieces v ⟨rest, qs⟩).2.requests = qs ++ [.inFlightPieces n] ++ new ∧
      ∀ q ∈ new, q.Fits ctx := by
  rw [Context.readInFlightPieces]
  rcases hint : Read.int v 4 ⟨rest, qs⟩ with ⟨e | n, r⟩
  · rw [bind_of_error hint]
    refine .inl ⟨?_, ?_⟩
    · rintro n hn rest' rfl
      cases hint.symm.trans (int_eq_ok.mpr ⟨hn, rest', rfl, rfl⟩)
    · have := (asks_int v 4).requests_eq ⟨rest, qs⟩
      rwa [hint] at this
  · rw [bind_of_ok hint]
    obtain ⟨hn, rest', rfl, rfl⟩ := int_eq_ok.mp hint
    obtain ⟨new, hnew, hfits⟩ := asks_readPieces v n ⟨rest', qs ++ [.inFlightPieces n]⟩
    exact .inr ⟨n, rest', new, hn, rfl, hnew, hfits⟩

/-! ## Which files load throws at -/

section Grammar

variable (ctx)

/-- The pieces in flight are all there. -/
def PiecesWhole (v : Nat) (rest : List UInt8) : Prop :=
  ∃ ps : List (InFlightPiece ctx), (ps.length < 256 ^ 4 ∧ ∀ p ∈ ps, p.Valid) ∧
    ∃ rest', rest = int v 4 ps.length ++ ((ps.flatMap fun p => p.bytes v) ++ rest')

/-- There is progress that a change of the piece length would lose, and no leave to lose it. -/
def Refused (h : Header) (bits : List UInt8) (n : Nat) : Prop :=
  (((BitfieldMan.new (toBlockLength h.pieceLength).toNat ctx.totalLength).setBitfield
    bits).getCompletedLength ≠ 0 ∨ n ≠ 0) ∧ ctx.allowPieceLengthChange = false

/-- Behind the bit field of another piece length there is a number, and it is not refused. -/
def Convertible (h : Header) (bits rest : List UInt8) : Prop :=
  ∃ n rest', n < 256 ^ 4 ∧ rest = int h.version 4 n ++ rest' ∧ ¬Refused ctx h bits n

/-- What is behind the header is all there. -/
def Whole (h : Header) (rest : List UInt8) : Prop :=
  ∃ bits rest', bits.length = ctx.expectedBitfieldLength h ∧
    rest = int h.version 4 bits.length ++ (bits ++ rest') ∧
    if h.pieceLength = ctx.pieceLength then PiecesWhole ctx h.version rest'
    else Convertible ctx h bits rest'

end Grammar

variable {s : State ctx} {h : Header} {bits rest : List UInt8} {qs : List Request}

theorem threw_loadSame_iff :
    (∃ e, (s.loadSame h bits ⟨rest, qs⟩).outcome = .threw e) ↔ ¬PiecesWhole ctx h.version rest := by
  unfold State.loadSame
  rcases hread : ctx.readInFlightPieces h.version ⟨rest, qs⟩ with ⟨e | ps, r⟩
  · refine iff_of_true ⟨e, rfl⟩ ?_
    rintro ⟨ps, hps, rest', hrest⟩
    exact nomatch hread.symm.trans (readInFlightPieces_eq_ok.mpr ⟨hps, rest', hrest, rfl⟩)
  · obtain ⟨hps, rest', hrest, -⟩ := readInFlightPieces_eq_ok.mp hread
    exact iff_of_false nofun fun hn => hn ⟨ps, hps, rest', hrest⟩

theorem threw_loadConverted_iff :
    (∃ e, (s.loadConverted h bits ⟨rest, qs⟩).outcome = .threw e) ↔
      ¬Convertible ctx h bits rest := by
  unfold State.loadConverted
  rcases hread : Read.int h.version 4 ⟨rest, qs⟩ with ⟨e | n, r⟩
  · refine iff_of_true ⟨e, rfl⟩ ?_
    rintro ⟨n, rest', hn, hrest, -⟩
    exact nomatch hread.symm.trans (int_eq_ok.mpr ⟨hn, rest', hrest, rfl⟩)
  · obtain ⟨hn, rest', hrest, -⟩ := int_eq_ok.mp hread
    have hconv : Convertible ctx h bits rest ↔ ¬Refused ctx h bits n := by
      refine ⟨?_, fun hr => ⟨n, rest', hn, hrest, hr⟩⟩
      rintro ⟨n', rest'', hn', hrest', hr⟩
      have := hread.symm.trans (int_eq_ok.mpr ⟨hn', rest'', hrest', rfl⟩)
      exact (Except.ok.inj (Prod.mk.inj this).1) ▸ hr
    rw [hconv, not_not, Refused]
    simp only [Bool.not_eq_true']
    split_ifs with hchanged
    · exact iff_of_true ⟨_, rfl⟩ hchanged
    · refine iff_of_false ?_ hchanged
      split <;> nofun

theorem threw_loadBody_iff :
    (∃ e, (s.loadBody h ⟨rest, qs⟩).outcome = .threw e) ↔ ¬Whole ctx h rest := by
  by_cases hbits : ∃ bits rest', bits.length = ctx.expectedBitfieldLength h ∧
      rest = int h.version 4 bits.length ++ (bits ++ rest')
  · obtain ⟨bits, rest', hlen, rfl⟩ := hbits
    have hwhole : Whole ctx h (int h.version 4 bits.length ++ (bits ++ rest')) ↔
        if h.pieceLength = ctx.pieceLength then PiecesWhole ctx h.version rest'
        else Convertible ctx h bits rest' := by
      refine ⟨?_, fun hr => ⟨bits, rest', hlen, rfl, hr⟩⟩
      rintro ⟨bits', rest'', hlen', heq, hr⟩
      have heq' := List.append_inj heq (by simp)
      obtain ⟨rfl, rfl⟩ := List.append_inj heq'.2 (hlen.trans hlen'.symm)
      exact hr
    rw [hwhole, loadBody_of_bitfield hlen]
    split_ifs
    exacts [threw_loadSame_iff, threw_loadConverted_iff]
  · refine iff_of_true ?_ fun ⟨bits, rest', hlen, hrest, _⟩ => hbits ⟨bits, rest', hlen, hrest⟩
    unfold State.loadBody
    rcases hread : ctx.readBitfield h ⟨rest, qs⟩ with ⟨e | bits, r⟩
    · exact ⟨e, rfl⟩
    · obtain ⟨hlen, rest', hrest, -⟩ := readBitfield_eq_ok.mp hread
      exact absurd ⟨bits, rest', hlen, hrest⟩ hbits

/-! ## What it leaves -/

theorem uploadLengthAtStartup_loadBody (s : State ctx) (h : Header) (r : Reader) :
    (s.loadBody h r).state.uploadLengthAtStartup = s.uploadLengthAtStartup := by
  unfold State.loadBody
  split
  · rfl
  · split_ifs
    · unfold State.loadSame
      dsimp only
      split <;> rfl
    · unfold State.loadConverted
      split
      · rfl
      · dsimp only
        split_ifs
        · rfl
        · split <;> rfl

theorem state_loadSame (hthrew : ∃ e, (s.loadSame h bits ⟨rest, qs⟩).outcome = .threw e) :
    (s.loadSame h bits ⟨rest, qs⟩).state = s.setBitfield bits := by
  revert hthrew
  unfold State.loadSame
  dsimp only
  split
  · exact fun _ => rfl
  · exact fun hthrew => nomatch hthrew.choose_spec

theorem state_loadConverted
    (hthrew : ∃ e, (s.loadConverted h bits ⟨rest, qs⟩).outcome = .threw e) :
    (s.loadConverted h bits ⟨rest, qs⟩).state = s := by
  revert hthrew
  unfold State.loadConverted
  split
  · exact fun _ => rfl
  · dsimp only
    split_ifs
    · exact fun _ => rfl
    · split
      · exact fun hthrew => nomatch hthrew.choose_spec
      · exact fun hthrew => nomatch hthrew.choose_spec

/-- The bit field without bits. -/
def noBits (ctx : Context) : List UInt8 := List.replicate ((ctx.getNumPieces + 7) / 8) 0

theorem bits_new : (PieceStorage.new ctx).bitfieldMan.bitfield.bytes = noBits ctx := by
  have hblocks := (PieceStorage.new ctx).blocks_eq
  change List.replicate (((PieceStorage.new ctx).bitfieldMan.blocks + 7) / 8) 0 = noBits ctx
  rw [hblocks]
  rfl

theorem setBitfield_noBits : (PieceStorage.new ctx).setBitfield (noBits ctx) = .new ctx := by
  have hman : (PieceStorage.new ctx).bitfieldMan.setBitfield (noBits ctx) =
      (PieceStorage.new ctx).bitfieldMan := by
    rw [← bits_new]
    unfold BitfieldMan.setBitfield
    split
    · rfl
    · rfl
  have hcounts : ((PieceStorage.new ctx).counts.mapIdx fun i x =>
      if Bitfield.test (noBits ctx) i then PieceStorage.inc x else x) =
        (PieceStorage.new ctx).counts := by
    have htest : ∀ i, Bitfield.test (noBits ctx) i = false := fun i => by
      rw [← bits_new]
      exact Bitfield.Field.test_zero i
    simp [htest, List.mapIdx_eq_zipIdx_map]
  unfold PieceStorage.setBitfield
  congr

/-- A bit field of the right length is there afterwards. -/
theorem setBitfield_eq_new_iff (hlen : bits.length = (ctx.getNumPieces + 7) / 8) :
    (PieceStorage.new ctx).setBitfield bits = .new ctx ↔ bits = noBits ctx := by
  constructor
  · intro heq
    have hbits : ((PieceStorage.new ctx).setBitfield bits).bitfieldMan.bitfield.bytes = bits :=
      BitfieldMan.bytes_setBitfield _ (by rw [hlen, PieceStorage.blocks_eq])
    rw [← hbits, heq, bits_new]
  · rintro rfl
    exact setBitfield_noBits

/-! ## All requests of a load -/

theorem requests_loadSame (s : State ctx) (h : Header) (bits : List UInt8) (r : Reader) :
    (s.loadSame h bits r).requests = (ctx.readInFlightPieces h.version r).2.requests := by
  unfold State.loadSame
  dsimp only
  split <;> simp_all

/-- A conversion asks for two managers, once the number of pieces in flight is read. -/
theorem requests_loadConverted (s : State ctx) (h : Header) (bits rest : List UInt8)
    (qs : List Request) :
    ((∀ n < 256 ^ 4, ∀ rest', rest ≠ int h.version 4 n ++ rest') ∧
      (s.loadConverted h bits ⟨rest, qs⟩).requests = qs) ∨
    (∃ n rest' new, n < 256 ^ 4 ∧ rest = int h.version 4 n ++ rest' ∧
      (s.loadConverted h bits ⟨rest, qs⟩).requests =
        qs ++ [.bitfieldMan (toBlockLength h.pieceLength)] ++ new ∧ ∀ q ∈ new, q.Fits ctx) := by
  unfold State.loadConverted
  rcases hint : Read.int h.version 4 ⟨rest, qs⟩ with ⟨e | n, r⟩
  · refine .inl ⟨?_, ?_⟩
    · rintro n hn rest' rfl
      exact nomatch hint.symm.trans (int_eq_ok.mpr ⟨hn, rest', rfl, rfl⟩)
    · have := (asks_int h.version 4).requests_eq ⟨rest, qs⟩
      rwa [hint] at this
  · obtain ⟨hn, rest', rfl, rfl⟩ := int_eq_ok.mp hint
    have hfits : ∀ q ∈ [Request.bitfieldMan ctx.pieceLength], q.Fits ctx := fun q hq => by
      rw [List.mem_singleton.mp hq]
      exact Int.natCast_pos.mpr ctx.pieceLength_pos
    dsimp only
    split_ifs
    · exact .inr ⟨n, rest', [], hn, rfl, (List.append_nil _).symm, nofun⟩
    · split <;> exact .inr ⟨n, rest', _, hn, rfl, rfl, hfits⟩

theorem toBlockLength_pos (hpos : 0 < h.pieceLength) (hlt : h.pieceLength < 256 ^ 4) :
    0 < toBlockLength h.pieceLength ↔ h.pieceLength < 2 ^ 31 := by
  unfold toBlockLength
  split <;> omega

variable (ctx) in
/-- What the bytes of a file have to say for a `load` to leave nothing behind where it throws, and
to ask for no more than the download needs. -/
structure Benign (file : List UInt8) : Prop where
  bitfield : ∀ h rest, h.Valid ctx →
    file = h.bytes ctx ++ (int h.version 4 (ctx.expectedBitfieldLength h) ++ rest) →
    (ctx.savedPieces h + 7) / 8 < 2 ^ 32
  sizes : ∀ h bits n rest, h.Valid ctx → bits.length = ctx.expectedBitfieldLength h →
    n < 256 ^ 4 → file = h.bytes ctx ++ (int h.version 4 bits.length ++ (bits ++
      (int h.version 4 n ++ rest))) →
    if h.pieceLength = ctx.pieceLength then n ≤ ctx.getNumPieces else h.pieceLength < 2 ^ 31
  upload : ∀ h rest, h.Valid ctx → file = h.bytes ctx ++ rest →
    ctx.isTorrentDownload = true → h.uploadLength ≠ 0 → Whole ctx h rest
  marks : ∀ h bits rest, h.Valid ctx → h.pieceLength = ctx.pieceLength →
    bits.length = ctx.expectedBitfieldLength h →
    file = h.bytes ctx ++ (int h.version 4 bits.length ++ (bits ++ rest)) →
    bits ≠ noBits ctx → PiecesWhole ctx h.version rest

theorem toInt64_eq_zero {n : Nat} (hn : n < 256 ^ 8) : toInt64 n = 0 ↔ n = 0 := by
  unfold toInt64
  split <;> omega

/-- The bit field request, made where the length is the expected one. -/
theorem request_bitfield_mem {s : State ctx} (rest : List UInt8) :
    .bitfield (ctx.expectedBitfieldLength h) (ctx.savedPieces h) ∈
      (s.loadBody h ⟨int h.version 4 (ctx.expectedBitfieldLength h) ++ rest, []⟩).requests := by
  have hreq : .bitfield (ctx.expectedBitfieldLength h) (ctx.savedPieces h) ∈ (ctx.readBitfield h
      ⟨int h.version 4 (ctx.expectedBitfieldLength h) ++ rest, []⟩).2.requests := by
    rcases requests_readBitfield ctx h
      (int h.version 4 (ctx.expectedBitfieldLength h) ++ rest) [] with ⟨hno, -⟩ | ⟨-, hyes⟩
    · exact absurd rfl (hno rest)
    · rw [hyes]
      exact List.mem_singleton.mpr rfl
  unfold State.loadBody
  rcases hread : ctx.readBitfield h ⟨int h.version 4 (ctx.expectedBitfieldLength h) ++ rest, []⟩ with
    ⟨e | bits, ⟨rest', qs⟩⟩
  · rw [hread] at hreq
    exact hreq
  · rw [hread] at hreq
    dsimp only
    split_ifs
    · rw [requests_loadSame]
      rcases requests_readInFlightPieces ctx h.version rest' qs with
        ⟨-, heq⟩ | ⟨n, rest'', new, -, -, heq, -⟩
      · rwa [heq]
      · rw [heq]
        exact List.mem_append_left _ (List.mem_append_left _ hreq)
    · rcases requests_loadConverted s h bits rest' qs with
        ⟨-, heq⟩ | ⟨n, rest'', new, -, -, heq, -⟩
      · rwa [heq]
      · rw [heq]
        exact List.mem_append_left _ (List.mem_append_left _ hreq)

theorem int_append_inj {v n n' : Nat} {rest rest' : List UInt8} (hn : n < 256 ^ 4)
    (hn' : n' < 256 ^ 4) (h : int v 4 n ++ rest = int v 4 n' ++ rest') : n = n' := by
  have := congrArg (intValue v) (List.append_inj h (by simp)).1
  rwa [intValue_int hn, intValue_int hn'] at this

/-- The length that is expected, where 32 bits hold it. -/
theorem expectedBitfieldLength_eq (hlt : (ctx.savedPieces h + 7) / 8 < 2 ^ 32) :
    ctx.expectedBitfieldLength h = (ctx.savedPieces h + 7) / 8 := Nat.mod_eq_of_lt hlt

theorem fits_of_benign {file : List UInt8} (hb : Benign ctx file) (s : State ctx) :
    ∀ q ∈ (s.load file).requests, q.Fits ctx := by
  unfold State.load
  rcases hread : ctx.readHeader ⟨file, []⟩ with ⟨e | h, ⟨rest, qs⟩⟩
  · have hnone : Asks (fun _ => False) ctx.readHeader := asks_readHeader _
    have hqs := hnone.requests_eq ⟨file, []⟩
    rw [hread] at hqs
    dsimp only at hqs ⊢
    rw [hqs]
    nofun
  obtain ⟨hvalid, rest, rfl, hr⟩ := readHeader_eq_ok.mp hread
  cases hr
  dsimp only
  generalize s.setUploadLengthAtStartup h = s
  have hfit : ∀ rest', rest = int h.version 4 (ctx.expectedBitfieldLength h) ++ rest' →
      (Request.bitfield (ctx.expectedBitfieldLength h) (ctx.savedPieces h)).Fits ctx :=
    fun rest' hrest => expectedBitfieldLength_eq (hb.bitfield h rest' hvalid (by rw [hrest]))
  unfold State.loadBody
  rcases hbits : ctx.readBitfield h ⟨rest, []⟩ with ⟨e | bits, r⟩
  · have hreq := requests_readBitfield ctx h rest []
    rw [hbits] at hreq
    dsimp only at hreq ⊢
    rcases hreq with ⟨-, hreq⟩ | ⟨⟨rest', hrest⟩, hreq⟩
    · rw [hreq]
      nofun
    · rw [hreq]
      exact fun q hq => List.mem_singleton.mp hq ▸ hfit rest' hrest
  · obtain ⟨hlen, rest', rfl, rfl⟩ := readBitfield_eq_ok.mp hbits
    have hfit' := hfit _ (by rw [← hlen])
    rw [← hlen] at hfit'
    have hsizes := fun (n : Nat) (hn : n < 256 ^ 4) (rest'' : List UInt8)
        (hrest : rest' = int h.version 4 n ++ rest'') =>
      hb.sizes h bits n rest'' hvalid hlen hn (by rw [hrest])
    have hone : ∀ q ∈ [] ++ [Request.bitfield bits.length (ctx.savedPieces h)], q.Fits ctx :=
      fun q hq => List.mem_singleton.mp hq ▸ hfit'
    dsimp only
    split_ifs with hsame
    · rw [requests_loadSame]
      rcases requests_readInFlightPieces ctx h.version rest'
        ([] ++ [.bitfield bits.length (ctx.savedPieces h)]) with
        ⟨-, heq⟩ | ⟨n, rest'', new, hn, hrest, heq, hnew⟩
      · rw [heq]
        exact hone
      · rw [heq]
        have hle := hsizes n hn rest'' hrest
        rw [if_pos hsame] at hle
        simp only [List.forall_mem_append]
        exact ⟨⟨by simpa using hone, by simpa [Request.Fits] using hle⟩, hnew⟩
    · rcases requests_loadConverted s h bits rest'
        ([] ++ [.bitfield bits.length (ctx.savedPieces h)]) with
        ⟨-, heq⟩ | ⟨n, rest'', new, hn, hrest, heq, hnew⟩
      · rw [heq]
        exact hone
      · rw [heq]
        have hlt := hsizes n hn rest'' hrest
        rw [if_neg hsame, ← toBlockLength_pos hvalid.pieceLength_pos hvalid.pieceLength_lt] at hlt
        simp only [List.forall_mem_append]
        exact ⟨⟨by simpa using hone, by simpa [Request.Fits] using hlt⟩, hnew⟩

/-- With nothing behind the header that fails, or nothing in it that stays, the header is no trace.
-/
theorem setUploadLengthAtStartup_eq_self {s : State ctx} (hup : s.uploadLengthAtStartup = 0)
    (hzero : ctx.isTorrentDownload = true → h.uploadLength = 0) :
    s.setUploadLengthAtStartup h = s := by
  unfold State.setUploadLengthAtStartup
  split_ifs with htorrent
  · rw [hzero htorrent, show toInt64 0 = s.uploadLengthAtStartup from hup.symm]
  · rfl

theorem setBitfield_eq_self_iff {s : State ctx} (hs : s.storage = .new ctx)
    (hlen : bits.length = (ctx.getNumPieces + 7) / 8) :
    s.setBitfield bits = s ↔ bits = noBits ctx := by
  rw [← setBitfield_eq_new_iff hlen, ← hs]
  refine ⟨congrArg State.storage, fun heq => ?_⟩
  unfold State.setBitfield
  rw [heq]

theorem state_eq_of_benign {file : List UInt8} (hb : Benign ctx file) {s : State ctx}
    (hs : s.storage = .new ctx) (hup : s.uploadLengthAtStartup = 0)
    (hthrew : ∃ e, (s.load file).outcome = .threw e) : (s.load file).state = s := by
  by_cases hheader : ∃ (h : Header) (rest : List UInt8), h.Valid ctx ∧ file = h.bytes ctx ++ rest
  case neg =>
    unfold State.load
    rcases hread : ctx.readHeader ⟨file, []⟩ with ⟨e | h, r⟩
    · rfl
    · obtain ⟨hvalid, rest, hfile, -⟩ := readHeader_eq_ok.mp hread
      exact absurd ⟨h, rest, hvalid, hfile⟩ hheader
  obtain ⟨h, rest, hvalid, rfl⟩ := hheader
  rw [load_of_header hvalid rfl] at hthrew ⊢
  have hbroken := threw_loadBody_iff.mp hthrew
  rw [setUploadLengthAtStartup_eq_self hup fun htorrent => by_contra fun hne =>
    hbroken (hb.upload h rest hvalid rfl htorrent hne)] at hthrew ⊢
  rcases hread : ctx.readBitfield h ⟨rest, []⟩ with ⟨e | bits, r⟩
  · simp only [State.loadBody, hread]
  obtain ⟨hlen, rest, rfl, -⟩ := readBitfield_eq_ok.mp hread
  rw [loadBody_of_bitfield hlen] at hthrew ⊢
  split_ifs at hthrew ⊢ with hsame
  · have hnone : bits = noBits ctx := by_contra fun hne =>
      threw_loadSame_iff.mp hthrew (hb.marks h bits rest hvalid hsame hlen rfl hne)
    rw [state_loadSame hthrew, setBitfield_eq_self_iff hs (by rw [hnone]; simp [noBits])]
    exact hnone
  · exact state_loadConverted hthrew

/-- The size that is asked for with the pieces in flight, or with the conversion. -/
theorem sizes_of_fits {s : State ctx} {n : Nat} (hvalid : h.Valid ctx)
    (hlen : bits.length = ctx.expectedBitfieldLength h) (hn : n < 256 ^ 4)
    (hfits : ∀ q ∈ (s.loadBody h ⟨int h.version 4 bits.length ++ (bits ++
      (int h.version 4 n ++ rest)), []⟩).requests, q.Fits ctx) :
    if h.pieceLength = ctx.pieceLength then n ≤ ctx.getNumPieces else h.pieceLength < 2 ^ 31 := by
  rw [loadBody_of_bitfield hlen] at hfits
  split_ifs at hfits ⊢ with hsame
  · rw [requests_loadSame] at hfits
    rcases requests_readInFlightPieces ctx h.version (int h.version 4 n ++ rest)
      ([] ++ [.bitfield bits.length (ctx.savedPieces h)]) with
      ⟨hno, -⟩ | ⟨n', rest', new, hn', hrest, heq, -⟩
    · exact absurd rfl (hno n hn rest)
    · obtain rfl := int_append_inj hn hn' hrest
      exact hfits (.inFlightPieces n) (by rw [heq]; simp)
  · rcases requests_loadConverted s h bits (int h.version 4 n ++ rest)
      ([] ++ [.bitfield bits.length (ctx.savedPieces h)]) with
      ⟨hno, -⟩ | ⟨n', rest', new, hn', hrest, heq, -⟩
    · exact absurd rfl (hno n hn rest)
    · exact (toBlockLength_pos hvalid.pieceLength_pos hvalid.pieceLength_lt).mp
        (hfits (.bitfieldMan (toBlockLength h.pieceLength)) (by rw [heq]; simp))

/-- The files at which a `load` on a fresh download is traceless. -/
theorem traceless_iff {s : State ctx} (hs : s.storage = .new ctx)
    (hup : s.uploadLengthAtStartup = 0) (file : List UInt8) :
    Traceless s file ↔ Benign ctx file := by
  refine ⟨fun ⟨hstate, hfits⟩ => ?_, fun hb => ⟨state_eq_of_benign hb hs hup, fits_of_benign hb s⟩⟩
  have hbitfield : ∀ h rest, h.Valid ctx →
      file = h.bytes ctx ++ (int h.version 4 (ctx.expectedBitfieldLength h) ++ rest) →
      (ctx.savedPieces h + 7) / 8 < 2 ^ 32 := by
    intro h rest hvalid hfile
    rw [load_of_header hvalid hfile] at hfits
    have hfit : ctx.expectedBitfieldLength h = (ctx.savedPieces h + 7) / 8 :=
      hfits _ (request_bitfield_mem rest)
    exact hfit ▸ Nat.mod_lt _ (by decide)
  refine ⟨hbitfield, ?_, ?_, ?_⟩
  · intro h bits n rest hvalid hlen hn hfile
    rw [load_of_header hvalid hfile] at hfits
    exact sizes_of_fits hvalid hlen hn hfits
  · intro h rest hvalid hfile htorrent hne
    rw [load_of_header hvalid hfile] at hstate
    by_contra hbroken
    have hupload := congrArg State.uploadLengthAtStartup (hstate (threw_loadBody_iff.mpr hbroken))
    rw [uploadLengthAtStartup_loadBody, State.setUploadLengthAtStartup, if_pos htorrent, hup] at hupload
    exact hne ((toInt64_eq_zero hvalid.uploadLength_lt).mp hupload)
  · intro h bits rest hvalid hsame hlen hfile hne
    rw [load_of_header hvalid hfile, loadBody_of_bitfield hlen, if_pos hsame] at hstate
    by_contra hbroken
    have hloaded := hstate (threw_loadSame_iff.mpr hbroken)
    rw [state_loadSame (threw_loadSame_iff.mpr hbroken)] at hloaded
    have hmarks := congrArg State.storage hloaded
    have hnum : bits.length = (ctx.getNumPieces + 7) / 8 := by
      have hlt := hbitfield h (bits ++ rest) hvalid (by rw [← hlen, hfile])
      rw [hlen, expectedBitfieldLength_eq hlt, Context.savedPieces, hsame]
      rfl
    have hstorage : (s.setUploadLengthAtStartup h).storage = .new ctx :=
      (storage_setUploadLengthAtStartup s h).trans hs
    refine hne ((setBitfield_eq_new_iff hnum).mp ?_)
    rw [← hstorage]
    exact hmarks.trans (hs.trans hstorage.symm)

/-- A fresh download. -/
def noneComplete : State (threePieces 24576 pieceLength_pos pieceLength_lt) := { storage := .new _ }

/-- Its file, one byte short. -/
theorem traceless_iff_truncated :
    (noneComplete.load noneComplete.content.dropLast).outcome = .threw .segmentFileRead ∧
      Benign (threePieces 24576 (by decide) (by decide)) noneComplete.content.dropLast := by
  have hrequests : (noneComplete.load noneComplete.content.dropLast).requests =
      [.bitfield 1 3] := by decide
  have hfits : ∀ q ∈ (noneComplete.load noneComplete.content.dropLast).requests,
      q.Fits (threePieces 24576 (by decide) (by decide)) := fun q hq => by
      rw [hrequests, List.mem_singleton] at hq
      rw [hq]
      rfl
  have hstate : (noneComplete.load noneComplete.content.dropLast).state = noneComplete := by
    decide
  exact ⟨by decide, (traceless_iff rfl rfl _).mp ⟨fun _ => hstate, hfits⟩⟩

/-- The file of a download with a complete piece, one byte short: the bit of the piece is there
after the throw. -/
theorem traceless_truncated :
    ¬∀ (ctx : Context) (s : State ctx) (file : List UInt8), s.storage = .new ctx →
      s.uploadLengthAtStartup = 0 → Traceless s file := by
  intro h
  have hthrew : (noneComplete.load firstComplete.content.dropLast).outcome =
      .threw .segmentFileRead := by decide
  have hstate := (h _ noneComplete firstComplete.content.dropLast rfl rfl).1 ⟨_, hthrew⟩
  exact absurd hstate (by decide)

end FluxCore.Progress
