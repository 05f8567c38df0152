import FluxCore.Http.ChunkedDecoding

/-!
# Messages in the chunked transfer coding

A `Message` is a body in chunks, each with its size in hexadecimal digits and with extensions, and
trailer lines behind the last chunk. The decoder gets the body out of it, stops at its end and knows
that it is there, however the input is cut into pieces, and takes no size that is too big
(`decodes`).
-/

namespace FluxCore.Http

open Util (isHexDigit hexCharToUInt)

namespace Chunked

/-- The number that hexadecimal digits behind those of `n` make. -/
def hexValue (n : Nat) : List UInt8 → Nat
  | [] => n
  | c :: cs => hexValue (16 * n + (hexCharToUInt c).toNat) cs

/-- The digits of a size. -/
structure Size where
  digits : List UInt8
  nonempty : digits ≠ []
  hex : ∀ c ∈ digits, isHexDigit c = true

def Size.value (s : Size) : Nat := hexValue 0 s.digits

/-- Extensions: nothing, or a semicolon and anything up to the end of the line. -/
structure Extension where
  bytes : List UInt8
  wf : bytes = [] ∨ ∃ bs, bytes = semicolon :: bs ∧ CR ∉ bs

structure Chunk where
  size : Size
  extension : Extension
  data : List UInt8
  nonempty : data ≠ []
  value_eq : size.value = data.length
  value_lt : data.length < 2 ^ 63

def Chunk.bytes (c : Chunk) : List UInt8 :=
  c.size.digits ++ c.extension.bytes ++ [CR, LF] ++ c.data ++ [CR, LF]

/-- A line behind the last chunk. -/
structure Trailer where
  line : List UInt8
  nonempty : line ≠ []
  noCR : CR ∉ line

def Trailer.bytes (t : Trailer) : List UInt8 := t.line ++ [CR, LF]

structure Message where
  chunks : List Chunk
  lastSize : Size
  lastExtension : Extension
  trailers : List Trailer
  last : lastSize.value = 0

def Message.bytes (m : Message) : List UInt8 :=
  m.chunks.flatMap (·.bytes) ++ (m.lastSize.digits ++ m.lastExtension.bytes ++ [CR, LF]) ++
    m.trailers.flatMap (·.bytes) ++ [CR, LF]

def Message.body (m : Message) : List UInt8 := m.chunks.flatMap (·.data)

variable {s s' : Control} {c : UInt8}

/-- A byte that is not data. -/
theorem feed_read (state : State) (hs : s.state = state)
    (hne : state ≠ .chunksComplete ∧ state ≠ .chunk) (cs : List UInt8) :
    feed s (c :: cs) = (s.read c).bind fun s => feed s cs := by
  subst hs
  rw [feed_cons hne.1, Control.byte, if_neg hne.2]
  cases s.read c with
  | error e => rfl
  | ok s' => exact Result.prepend_nil _

theorem feed_ok (state : State) (hs : s.state = state)
    (hne : state ≠ .chunksComplete ∧ state ≠ .chunk) (hr : s.read c = .ok s') (cs : List UInt8) :
    feed s (c :: cs) = feed s' cs := by
  rw [feed_read state hs hne, hr]
  rfl

theorem le_hexValue (n : Nat) (ds : List UInt8) : n ≤ hexValue n ds := by
  induction ds generalizing n with
  | nil => exact le_refl _
  | cons c ds ih => exact (by omega : n ≤ 16 * n + (hexCharToUInt c).toNat).trans (ih _)

/-- The control in the digits of a size. -/
def inSize (n : Nat) : Control := { state := .chunkSize, chunkSize := n }

theorem read_digit {n : Nat} (hn : n < 2 ^ 59) (hc : isHexDigit c = true) :
    (inSize n).read c = .ok (inSize (16 * n + (hexCharToUInt c).toNat)) := by
  have hbig : ¬tooBig n = true := by
    rw [tooBig_iff (by omega) (by omega)]
    omega
  change (if isHexDigit c = true then _ else _) = _
  rw [if_pos hc]
  change (if tooBig n = true then _ else Except.ok { inSize n with chunkSize := pushDigit n c }) = _
  rw [if_neg hbig, pushDigit_eq (by omega) (by omega) hc]
  rfl

theorem feed_digits {n : Nat} {ds : List UInt8} (hds : ∀ c ∈ ds, isHexDigit c = true)
    (hlt : hexValue n ds < 2 ^ 63) (cs : List UInt8) :
    feed (inSize n) (ds ++ cs) = feed (inSize (hexValue n ds)) cs := by
  induction ds generalizing n with
  | nil => rfl
  | cons c ds ih =>
    have hle := le_hexValue (16 * n + (hexCharToUInt c).toNat) ds
    rw [hexValue] at hlt
    rw [List.cons_append, feed_ok .chunkSize rfl (by decide)
      (read_digit (by omega) (hds c (List.mem_cons_self ..)))]
    exact ih (fun c hc => hds c (List.mem_cons_of_mem _ hc)) hlt

theorem read_first (hc : isHexDigit c = true) :
    Control.read {} c = .ok (inSize (hexValue 0 [c])) := by
  change (if isHexDigit c = true then _ else _) = _
  rw [if_pos hc, hexValue, hexValue, Nat.mul_zero, Nat.zero_add]
  rfl

theorem feed_size (size : Size) (hlt : size.value < 2 ^ 63) (cs : List UInt8) :
    feed {} (size.digits ++ cs) = feed (inSize size.value) cs := by
  obtain ⟨ds, hne, hhex⟩ := size
  cases ds with
  | nil => exact absurd rfl hne
  | cons c ds =>
    change feed {} (c :: (ds ++ cs)) = _
    rw [feed_ok .prevChunkSize rfl (by decide) (read_first (hhex c (List.mem_cons_self ..)))]
    exact feed_digits (fun c hc => hhex c (List.mem_cons_of_mem _ hc)) hlt cs

/-- A size that does not fit is not taken. -/
theorem feed_tooBig {n : Nat} {ds : List UInt8} (hds : ∀ c ∈ ds, isHexDigit c = true)
    (hn : n < 2 ^ 63) (hge : 2 ^ 63 ≤ hexValue n ds) (cs : List UInt8) :
    feed (inSize n) (ds ++ cs) = .error (.abort "Too big chunk size") := by
  induction ds generalizing n with
  | nil => exact absurd hge (not_le.mpr hn)
  | cons c ds ih =>
    have hc := hds c (List.mem_cons_self ..)
    have hlt := hexCharToUInt_lt hc
    by_cases hbig : n < 2 ^ 59
    · rw [List.cons_append, feed_ok .chunkSize rfl (by decide) (read_digit hbig hc)]
      exact ih (fun c hc => hds c (List.mem_cons_of_mem _ hc)) (by omega) hge
    · have hbig' : tooBig n = true := (tooBig_iff (by omega) (by omega)).mpr (by omega)
      have hread : (inSize n).read c = .error (.abort "Too big chunk size") := by
        change (if isHexDigit c = true then _ else _) = _
        rw [if_pos hc]
        exact if_pos hbig'
      rw [List.cons_append, feed_read .chunkSize rfl (by decide), hread]
      rfl

theorem feed_size_tooBig (size : Size) (hge : 2 ^ 63 ≤ size.value) (cs : List UInt8) :
    feed {} (size.digits ++ cs) = .error (.abort "Too big chunk size") := by
  obtain ⟨ds, hne, hhex⟩ := size
  cases ds with
  | nil => exact absurd rfl hne
  | cons c ds =>
    have hc := hhex c (List.mem_cons_self ..)
    have hfirst : hexValue 0 [c] < 2 ^ 63 := by
      have := hexCharToUInt_lt hc
      change 16 * 0 + (hexCharToUInt c).toNat < 2 ^ 63
      omega
    change feed {} (c :: (ds ++ cs)) = _
    rw [feed_ok .prevChunkSize rfl (by decide) (read_first hc)]
    exact feed_tooBig (fun c hc => hhex c (List.mem_cons_of_mem _ hc)) hfirst hge cs

/-- The control behind the line with a size. -/
def behindSize (n : Nat) : Control :=
  if n = 0 then { state := .prevTrailer }
  else { state := .chunk, chunkSize := n, chunkRemaining := n }

theorem feed_lineEnd (n : Nat) (cs : List UInt8) :
    feed { inSize n with state := .prevChunkSizeLF } (LF :: cs) = feed (behindSize n) cs := by
  refine feed_ok .prevChunkSizeLF rfl (by decide) ?_ cs
  change (if (n : Int) = 0 then _ else _) = Except.ok (behindSize n)
  rw [behindSize]
  split
  next h =>
    obtain rfl : n = 0 := by omega
    rfl
  next h =>
    rw [if_neg (by omega)]
    rfl

/-- Up to the end of the line. -/
theorem feed_skip (state next : State)
    (hne : state ≠ .chunksComplete ∧ state ≠ .chunk)
    (hread : ∀ c, ({ s with state } : Control).read c =
      if c = CR then .ok { s with state := next } else .ok { s with state })
    {bs : List UInt8} (hbs : CR ∉ bs) (cs : List UInt8) :
    feed { s with state } (bs ++ CR :: cs) = feed { s with state := next } cs := by
  induction bs with
  | nil => exact feed_ok state rfl hne ((hread CR).trans (if_pos rfl)) cs
  | cons b bs ih =>
    rw [List.mem_cons, not_or] at hbs
    rw [List.cons_append,
      feed_ok state rfl hne ((hread b).trans (if_neg (Ne.symm hbs.1))) (bs ++ CR :: cs)]
    exact ih hbs.2

theorem feed_extension (n : Nat) (e : Extension) (cs : List UInt8) :
    feed (inSize n) (e.bytes ++ CR :: LF :: cs) = feed (behindSize n) cs := by
  rw [← feed_lineEnd]
  obtain ⟨bytes, rfl | ⟨bs, rfl, hbs⟩⟩ := e
  · exact feed_ok .chunkSize rfl (by decide) rfl (LF :: cs)
  · have hsemi : feed (inSize n) (semicolon :: (bs ++ CR :: LF :: cs)) =
        feed { inSize n with state := .chunkExtension } (bs ++ CR :: LF :: cs) :=
      feed_ok .chunkSize rfl (by decide) rfl _
    exact hsemi.trans
      (feed_skip (s := inSize n) .chunkExtension .prevChunkSizeLF (by decide) (fun c => rfl) hbs
        (LF :: cs))

theorem Chunk.feed (c : Chunk) (cs : List UInt8) :
    Chunked.feed {} (c.bytes ++ cs) = (Chunked.feed {} cs).prepend c.data [] := by
  have hpos := List.length_pos_iff.mpr c.nonempty
  have hbytes : c.bytes ++ cs =
      c.size.digits ++ (c.extension.bytes ++ CR :: LF :: (c.data ++ CR :: LF :: cs)) := by
    simp only [Chunk.bytes, List.append_assoc, List.cons_append, List.nil_append]
  have hbehind : behindSize c.size.value =
      { state := .chunk, chunkSize := c.data.length, chunkRemaining := c.data.length } := by
    rw [behindSize, c.value_eq, if_neg (by omega)]
  rw [hbytes, feed_size _ (c.value_eq ▸ c.value_lt), feed_extension, hbehind,
    feed_chunk rfl c.nonempty (le_refl _)]
  have hend : ∀ n : Int, n ≠ 0 → ∀ cs,
      Chunked.feed (Control.skip { state := .chunk, chunkSize := n, chunkRemaining := n } n)
        (CR :: LF :: cs) = Chunked.feed {} cs := by
    intro n hn cs
    have hskip : Control.skip { state := .chunk, chunkSize := n, chunkRemaining := n } n =
        { state := .prevChunkCR, chunkSize := n, chunkRemaining := 0 } := by
      simp only [Control.skip, Int.sub_self, if_true]
    have hread : Control.read { state := .prevChunkLF, chunkSize := n, chunkRemaining := 0 } LF =
        .ok {} := if_neg hn
    rw [hskip, feed_ok .prevChunkCR rfl (by decide) rfl]
    exact feed_ok .prevChunkLF rfl (by decide) hread cs
  rw [hend _ (by omega)]

theorem Trailer.feed (t : Trailer) (cs : List UInt8) :
    Chunked.feed { state := .prevTrailer } (t.bytes ++ cs) =
      Chunked.feed { state := .prevTrailer } cs := by
  obtain ⟨line, hne, hcr⟩ := t
  cases line with
  | nil => exact absurd rfl hne
  | cons b bs =>
    rw [List.mem_cons, not_or] at hcr
    have hbytes : Trailer.bytes ⟨b :: bs, hne, by simpa using hcr⟩ ++ cs =
        b :: (bs ++ CR :: LF :: cs) := by
      simp only [Trailer.bytes, List.append_assoc, List.cons_append, List.nil_append]
    have hfirst : Control.read { state := .prevTrailer } b = .ok { state := .trailer } :=
      if_neg (Ne.symm hcr.1)
    have hline := feed_skip (s := {}) .trailer .prevTrailerLF (by decide) (fun c => rfl) hcr.2
      (LF :: cs)
    rw [hbytes, feed_ok .prevTrailer rfl (by decide) hfirst]
    exact hline.trans (feed_ok .prevTrailerLF rfl (by decide) rfl cs)

theorem feed_chunks (chunks : List Chunk) (cs : List UInt8) :
    feed {} (chunks.flatMap (·.bytes) ++ cs) =
      (feed {} cs).prepend (chunks.flatMap (·.data)) [] := by
  induction chunks with
  | nil => exact (Result.prepend_nil _).symm
  | cons c chunks ih =>
    rw [List.flatMap_cons, List.append_assoc, c.feed, ih, Result.prepend_prepend, List.flatMap_cons,
      List.append_nil]

theorem feed_trailers (ts : List Trailer) (cs : List UInt8) :
    feed { state := .prevTrailer } (ts.flatMap (·.bytes) ++ cs) =
      feed { state := .prevTrailer } cs := by
  induction ts with
  | nil => rfl
  | cons t ts ih => rw [List.flatMap_cons, List.append_assoc, t.feed, ih]

/-- **A message, byte by byte**: its body comes out, and what is behind it is left. -/
theorem Message.feed (m : Message) (other : List UInt8) :
    Chunked.feed {} (m.bytes ++ other) = .ok ({ state := .chunksComplete }, m.body, other) := by
  have hbytes : m.bytes ++ other = m.chunks.flatMap (·.bytes) ++ (m.lastSize.digits ++
      (m.lastExtension.bytes ++ CR :: LF :: (m.trailers.flatMap (·.bytes) ++
        CR :: LF :: other))) := by
    simp only [Message.bytes, List.append_assoc, List.cons_append, List.nil_append]
  have hend : Chunked.feed { state := .prevTrailer } (CR :: LF :: other) =
      .ok ({ state := .chunksComplete }, [], other) := by
    rw [feed_ok .prevTrailer rfl (by decide) rfl, feed_ok .prevEndLF rfl (by decide) rfl]
    exact feed_complete rfl other
  have hlast : behindSize m.lastSize.value = { state := .prevTrailer } := by
    rw [behindSize, m.last, if_pos rfl]
  rw [hbytes, feed_chunks, feed_size _ (by rw [m.last]; decide), feed_extension, hlast,
    feed_trailers, hend]
  exact congrArg (fun b => Except.ok (_, b, other)) (List.append_nil _)

/-- A first part of a message and of what is behind it. -/
theorem Message.feed_prefix (m : Message) {xs more other : List UInt8}
    (h : xs ++ more = m.bytes ++ other) :
    ∃ s bs rest, Chunked.feed {} xs = .ok (s, bs, rest) ∧
      (s.state = .chunksComplete ↔ m.bytes.length ≤ xs.length) ∧ bs <+: m.body ∧
      (m.bytes.length ≤ xs.length → bs = m.body) ∧ rest.length = xs.length - m.bytes.length := by
  rcases List.append_eq_append_iff.mp h with ⟨ys, hys, -⟩ | ⟨zs, rfl, -⟩
  · cases ys with
    | nil =>
      rw [List.append_nil] at hys
      have hfeed := m.feed []
      rw [List.append_nil, hys] at hfeed
      refine ⟨_, _, _, hfeed, ?_, List.prefix_refl _, fun _ => rfl, ?_⟩
      · rw [hys]
        exact iff_of_true rfl (le_refl _)
      · rw [hys, Nat.sub_self]
        rfl
    | cons y ys =>
      have hlt : ¬m.bytes.length ≤ xs.length := by
        rw [hys, List.length_append, List.length_cons]
        omega
      have hfeed := m.feed []
      rw [List.append_nil, hys, feed_append] at hfeed
      cases hxs : Chunked.feed {} xs with
      | error e => rw [hxs] at hfeed; cases hfeed
      | ok r =>
        obtain ⟨s, bs, rest⟩ := r
        rw [hxs] at hfeed
        change (Chunked.feed s (y :: ys)).prepend bs rest = _ at hfeed
        cases hmore : Chunked.feed s (y :: ys) with
        | error e => rw [hmore] at hfeed; cases hfeed
        | ok r =>
          obtain ⟨s', bs', rest'⟩ := r
          rw [hmore] at hfeed
          simp only [Result.prepend, Except.map, Except.ok.injEq, Prod.mk.injEq,
            List.append_eq_nil_iff] at hfeed
          obtain ⟨-, hbody, rfl, rfl⟩ := hfeed
          refine ⟨s, bs, [], rfl, iff_of_false (fun hend => ?_) hlt, ⟨bs', hbody⟩,
            fun hle => absurd hle hlt, ?_⟩
          · -- the rest of the message would have been left
            rw [feed_complete hend] at hmore
            cases hmore
          · rw [Nat.sub_eq_zero_of_le (by omega)]
            rfl
  · refine ⟨_, _, _, m.feed zs, iff_of_true rfl ?_, List.prefix_refl _, fun _ => rfl, ?_⟩
    · rw [List.length_append]
      exact Nat.le_add_right ..
    · rw [List.length_append, Nat.add_sub_cancel_left]

end Chunked

namespace ChunkedDecodingStreamFilter

open Chunked

/-- **What the decoder is for**, however its input is cut. Of an input that is a message with
anything behind it, or a first part of that, the delegate gets the body as far as it is there, and
no byte behind the message is processed; the decoder is finished, as far as it is concerned, from
the end of the message on. And a size from `2 ^ 63` on is refused behind any chunks. -/
theorem decodes {δ : Type} (d : StreamFilter δ) (d₀ : δ) (pieces : List (List UInt8)) :
    (∀ (m : Message) (more other : List UInt8), pieces.flatten ++ more = m.bytes ++ other →
      ∃ f ps, transforms d { delegate := d₀ } pieces = .ok (f, ps) ∧
        ps.sum = min pieces.flatten.length m.bytes.length ∧
        (f.finished d = true ↔
          m.bytes.length ≤ pieces.flatten.length ∧ d.finished f.delegate = true) ∧
        ∃ bs, Fed d d₀ bs f.delegate ∧ bs <+: m.body ∧
          (m.bytes.length ≤ pieces.flatten.length → bs = m.body)) ∧
    ∀ (chunks : List Chunk) (size : Size) (other : List UInt8), 2 ^ 63 ≤ size.value →
      pieces.flatten = chunks.flatMap (·.bytes) ++ size.digits ++ other →
      transforms d { delegate := d₀ } pieces = .error (.abort "Too big chunk size") := by
  have hspec := transforms_spec (d := d) (f := { delegate := d₀ }) wf_init pieces
  refine ⟨fun m more other h => ?_, fun chunks size other hsize h => ?_⟩
  · obtain ⟨s, bs, rest, hfeed, hend, hprefix, hall, hrest⟩ := m.feed_prefix h
    rw [hfeed] at hspec
    obtain ⟨delegate, ps, htransforms, hfed, hsum⟩ := hspec
    refine ⟨_, ps, htransforms, ?_, ?_, bs, hfed, hprefix, hall⟩
    · omega
    · rw [finished, Bool.and_eq_true, decide_eq_true_iff, hend]
  · have hfeed : feed {} pieces.flatten = .error (.abort "Too big chunk size") := by
      rw [h, List.append_assoc, feed_chunks, feed_size_tooBig size hsize]
      rfl
    rw [hfeed] at hspec
    exact hspec

/-- The message `3;x`, `abc`, `00`, `T:v` and an empty line, cut inside the data and inside the last
line end, with two bytes behind it; and a size of 17 digits. -/
theorem decodes_abc :
    let d : StreamFilter (List UInt8) := ⟨fun out bs => (out ++ bs, bs.length), fun _ => true⟩
    (∃ f ps, transforms d { delegate := [] }
        [[0x33, semicolon, 0x78, CR, LF, 0x61],
          [0x62, 0x63, CR, LF, 0x30, 0x30, CR, LF, 0x54, 0x3a, 0x76, CR, LF, CR],
          [LF, 0x47, 0x45]] = .ok (f, ps) ∧
      ps.sum = 21 ∧ f.finished d = true ∧ Fed d [] [0x61, 0x62, 0x63] f.delegate) ∧
    transforms d { delegate := [] } [List.replicate 1 0x38, List.replicate 16 0x30] =
      .error (.abort "Too big chunk size") := by
  intro d
  let m : Message :=
    { chunks :=
        [{ size := ⟨[0x33], by decide, by decide +kernel⟩
           extension := ⟨[semicolon, 0x78], .inr ⟨[0x78], rfl, by decide⟩⟩
           data := [0x61, 0x62, 0x63]
           nonempty := by decide
           value_eq := by decide
           value_lt := by decide }]
      lastSize := ⟨[0x30, 0x30], by decide, by decide +kernel⟩
      lastExtension := ⟨[], .inl rfl⟩
      trailers := [⟨[0x54, 0x3a, 0x76], by decide, by decide⟩]
      last := by decide }
  obtain ⟨f, ps, htransforms, hsum, hfin, bs, hfed, -, hbs⟩ := (decodes d []
    [[0x33, semicolon, 0x78, CR, LF, 0x61],
      [0x62, 0x63, CR, LF, 0x30, 0x30, CR, LF, 0x54, 0x3a, 0x76, CR, LF, CR],
      [LF, 0x47, 0x45]]).1 m [] [0x47, 0x45] (by decide)
  refine ⟨⟨f, ps, htransforms, hsum.trans (by decide), hfin.mpr ⟨by decide, rfl⟩, ?_⟩, ?_⟩
  · rw [hbs (by decide)] at hfed
    exact hfed
  · exact (decodes d [] [List.replicate 1 0x38, List.replicate 16 0x30]).2 []
      ⟨List.replicate 1 0x38 ++ List.replicate 16 0x30, by decide, by decide +kernel⟩ [] (by decide)
      (by decide)

end ChunkedDecodingStreamFilter

end FluxCore.Http
