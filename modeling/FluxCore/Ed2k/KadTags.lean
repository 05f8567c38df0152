import FluxCore.Ed2k.SourceExchange

/-!
# Kademlia tags

`kadSkipTags` of `Ed2kDownloadCommand.cc`. It is `none` where a byte beyond the end is read, and
`some none` where the source returns `SIZE_MAX`. The length of a blob is a `uint32_t`, and so is what
is added to it.
-/

namespace FluxCore.Ed2k

/-- A read of some bytes at an offset. -/
def bytesAt (p : Bytes) (off n : Nat) : Option Bytes :=
  if off + n ≤ p.length then some ((p.drop off).take n) else none

/-- What tells the length of a value. -/
inductive KadForm where
  | fixed (n : Nat)
  | string
  | blob
  | bsob
  deriving DecidableEq, Repr

/-- The types of tags that are supported. -/
def kadForm (type : UInt8) : Option KadForm :=
  match type.toNat with
  | 0x01 => some (.fixed 16)
  | 0x03 => some (.fixed 4)
  | 0x04 => some (.fixed 4)
  | 0x05 => some (.fixed 2)
  | 0x06 => some (.fixed 1)
  | 0x08 => some (.fixed 2)
  | 0x09 => some (.fixed 1)
  | 0x0B => some (.fixed 8)
  | 0x02 => some .string
  | 0x07 => some .blob
  | 0x0A => some .bsob
  | n => if 0x0C ≤ n ∧ n ≤ 0x1B then some (.fixed (n - 0x0B)) else none

/-- `valueLen`: the length of a value with what tells it. -/
def kadValueLen (p : Bytes) (off : Nat) : KadForm → Option (Option Nat)
  | .fixed n => some (some n)
  | .string =>
    if p.length < off + 1 then some none
    else (bytesAt p off 1).map fun b => some (1 + (b.getD 0 0).toNat)
  | .blob =>
    if p.length < off + 4 then some none
    else (bytesAt p off 4).map fun b => some (4 + readLe32 b).toNat
  | .bsob =>
    if p.length < off + 2 then some none
    else (bytesAt p off 2).map fun b => some (2 + (readLe16 b).toNat)

/-- A turn of the loop. -/
def kadSkipTag (p : Bytes) (off : Nat) : Option (Option Nat) :=
  if p.length < off + 2 then some none
  else do
    let b ← bytesAt p off 2
    let off := off + 2
    let nameLen := (b.getD 1 0).toNat
    if p.length < off + nameLen then some none
    else
      let off := off + nameLen
      match kadForm (b.getD 0 0) with
      | none => some none
      | some form =>
        match ← kadValueLen p off form with
        | none => some none
        | some valueLen =>
          if p.length < off + valueLen then some none else some (some (off + valueLen))

/-- The loop over the tags. -/
def kadSkipLoop (p : Bytes) : Nat → Nat → Option (Option Nat)
  | 0, off => some (some off)
  | n + 1, off => do
    match ← kadSkipTag p off with
    | none => some none
    | some off => kadSkipLoop p n off

def kadSkipTags (p : Bytes) (off : Nat) : Option (Option Nat) :=
  if p.length ≤ off then some none
  else do
    let tagCount ← bytesAt p off 1
    kadSkipLoop p (tagCount.getD 0 0).toNat (off + 1)

/-! ## The grammar -/

structure KadTag where
  type : UInt8
  name : Bytes
  value : Bytes
  deriving DecidableEq, Repr

/-- What stands in front of a value. -/
def KadForm.header (n : Nat) : KadForm → Bytes
  | .fixed _ => []
  | .string => [UInt8.ofNat n]
  | .blob => writeLe32 (UInt32.ofNat n)
  | .bsob => writeLe16 (UInt16.ofNat n)

/-- The lengths that a value may have. -/
def KadForm.Fits (n : Nat) : KadForm → Prop
  | .fixed k => n = k
  | .string => n < 2 ^ 8
  | .blob => n < 2 ^ 32
  | .bsob => n < 2 ^ 16

namespace KadTag

def render (t : KadTag) : Bytes :=
  t.type :: UInt8.ofNat t.name.length :: (t.name ++
    (((kadForm t.type).map (·.header t.value.length)).getD [] ++ t.value))

def WF (t : KadTag) : Prop :=
  t.name.length < 2 ^ 8 ∧ ∃ form, kadForm t.type = some form ∧ form.Fits t.value.length

end KadTag

def renderTags (tags : List KadTag) : Bytes := tags.flatMap KadTag.render

/-- So many tags stand at the beginning of the bytes, and have this length. -/
def TagsAre (n : Nat) (s : Bytes) (k : Nat) : Prop :=
  ∃ tags rest, (∀ t ∈ tags, KadTag.WF t) ∧ tags.length = n ∧ s = renderTags tags ++ rest ∧
    k = (renderTags tags).length

/-- So many tags stand at an offset, up to another one. -/
def Parses (p : Bytes) (count off off' : Nat) : Prop :=
  ∃ k, TagsAre count (p.drop off) k ∧ off' = off + k

/-- A blob starts here whose length and the four bytes of it are no `uint32_t`. -/
def Wraps (s : Bytes) : Prop :=
  ∃ (name : Bytes) (len : UInt32) (rest : Bytes), name.length < 2 ^ 8 ∧ 2 ^ 32 ≤ len.toNat + 4 ∧
    s = 0x07 :: UInt8.ofNat name.length :: (name ++ (writeLe32 len ++ rest))

/-- No list of so few tags is followed by such a blob. -/
def NoWrap (n : Nat) (s : Bytes) : Prop :=
  ∀ tags rest, (∀ t ∈ tags, KadTag.WF t) → tags.length < n → s = renderTags tags ++ rest →
    ¬ Wraps rest

/-! ## Skipping as a function of what is left -/

/-- The length of a value at the beginning of the bytes. -/
def KadForm.lenOf (r : Bytes) : KadForm → Option Nat
  | .fixed n => some n
  | .string => if r.length < 1 then none else some (1 + (r.getD 0 0).toNat)
  | .blob => if r.length < 4 then none else some (4 + readLe32 r).toNat
  | .bsob => if r.length < 2 then none else some (2 + (readLe16 r).toNat)

/-- The length of a tag at the beginning of the bytes. -/
def tagLen (s : Bytes) : Option Nat :=
  if s.length < 2 then none
  else
    let nameLen := (s.getD 1 0).toNat
    if s.length < 2 + nameLen then none
    else
      (kadForm (s.getD 0 0)).bind fun form =>
        (form.lenOf (s.drop (2 + nameLen))).bind fun valueLen =>
          if s.length < 2 + nameLen + valueLen then none else some (2 + nameLen + valueLen)

/-- The length of so many tags at the beginning of the bytes. -/
def tagsLen : Nat → Bytes → Option Nat
  | 0, _ => some 0
  | n + 1, s => (tagLen s).bind fun k => (tagsLen n (s.drop k)).map (k + ·)

theorem getD_take {s : Bytes} {n i : Nat} (h : i < n) : (s.take n).getD i 0 = s.getD i 0 := by
  simp [List.getD_eq_getElem?_getD, h]

theorem readLe16_take (s : Bytes) : readLe16 (s.take 2) = readLe16 s := by
  simp only [readLe16, getD_take (show 0 < 2 by decide), getD_take (show 1 < 2 by decide)]

theorem readLe32_take (s : Bytes) : readLe32 (s.take 4) = readLe32 s := by
  simp (disch := decide) only [readLe32, getD_take]

theorem bytesAt_of_le {p : Bytes} {off n : Nat} (h : ¬ p.length < off + n) :
    bytesAt p off n = some ((p.drop off).take n) := if_pos (by omega)

theorem kadValueLen_eq {p : Bytes} {off : Nat} (h : off ≤ p.length) (form : KadForm) :
    kadValueLen p off form = some (form.lenOf (p.drop off)) := by
  have hlt (n : Nat) : (p.drop off).length < n ↔ p.length < off + n := by
    rw [List.length_drop]; omega
  cases form with
  | fixed n => rfl
  | string =>
    simp only [kadValueLen, KadForm.lenOf, hlt]
    split
    · rfl
    · next hn => rw [bytesAt_of_le hn, Option.map_some, getD_take (by decide)]
  | blob =>
    simp only [kadValueLen, KadForm.lenOf, hlt]
    split
    · rfl
    · next hn => rw [bytesAt_of_le hn, Option.map_some, readLe32_take]
  | bsob =>
    simp only [kadValueLen, KadForm.lenOf, hlt]
    split
    · rfl
    · next hn => rw [bytesAt_of_le hn, Option.map_some, readLe16_take]

theorem kadSkipTag_eq (p : Bytes) (off : Nat) :
    kadSkipTag p off = some ((tagLen (p.drop off)).map (off + ·)) := by
  have hlt (n : Nat) (hn : 0 < n) : (p.drop off).length < n ↔ p.length < off + n := by
    rw [List.length_drop]; omega
  unfold kadSkipTag tagLen
  by_cases h2 : p.length < off + 2
  · rw [if_pos h2, if_pos ((hlt 2 (by decide)).mpr h2), Option.map_none]
  rw [if_neg h2, if_neg (mt (hlt 2 (by decide)).mp h2), bytesAt_of_le h2, Option.bind_eq_bind,
    Option.bind_some, getD_take (by decide), getD_take (by decide)]
  dsimp only
  generalize ((p.drop off).getD 1 0).toNat = nameLen
  by_cases hname : p.length < off + 2 + nameLen
  · rw [if_pos hname, if_pos ((hlt (2 + nameLen) (by omega)).mpr (by omega)), Option.map_none]
  rw [if_neg hname, if_neg (mt (hlt (2 + nameLen) (by omega)).mp (by omega))]
  rcases kadForm ((p.drop off).getD 0 0) with - | form
  · rfl
  dsimp only
  rw [kadValueLen_eq (Nat.not_lt.mp hname), Option.bind_eq_bind, Option.bind_some,
    Option.bind_some, List.drop_drop, ← Nat.add_assoc]
  rcases form.lenOf (p.drop (off + 2 + nameLen)) with - | valueLen
  · rfl
  dsimp only
  rw [Option.bind_some]
  by_cases hvalue : p.length < off + 2 + nameLen + valueLen
  · rw [if_pos hvalue, if_pos ((hlt (2 + nameLen + valueLen) (by omega)).mpr (by omega)),
      Option.map_none]
  · rw [if_neg hvalue, if_neg (mt (hlt (2 + nameLen + valueLen) (by omega)).mp (by omega)),
      Option.map_some, ← Nat.add_assoc, ← Nat.add_assoc]

theorem kadSkipLoop_eq (p : Bytes) (n off : Nat) :
    kadSkipLoop p n off = some ((tagsLen n (p.drop off)).map (off + ·)) := by
  induction n generalizing off with
  | zero => rfl
  | succ n ih =>
    rw [kadSkipLoop, kadSkipTag_eq, tagsLen, Option.bind_eq_bind, Option.bind_some]
    rcases tagLen (p.drop off) with - | k
    · rfl
    · rw [Option.map_some, Option.bind_some, Option.map_map]
      dsimp only
      rw [ih, List.drop_drop]
      simp only [Function.comp_def, Nat.add_assoc]

theorem kadSkipTags_cons (pre rest : Bytes) (c : UInt8) :
    kadSkipTags (pre ++ c :: rest) pre.length =
      some ((tagsLen c.toNat rest).map (pre.length + 1 + ·)) := by
  have hlen : ¬ (pre ++ c :: rest).length ≤ pre.length := by simp
  have hread : ¬ (pre ++ c :: rest).length < pre.length + 1 := by simp
  have hdrop : (pre ++ c :: rest).drop (pre.length + 1) = rest := by
    rw [← List.drop_drop, List.drop_left, List.drop_one, List.tail_cons]
  rw [kadSkipTags, if_neg hlen, bytesAt_of_le hread, Option.bind_eq_bind, Option.bind_some,
    getD_take (by decide), List.drop_left, kadSkipLoop_eq, hdrop]
  rfl

/-- No byte beyond the end is read. -/
theorem kadSkipTags_ne_none (p : Bytes) (off : Nat) : kadSkipTags p off ≠ none := by
  unfold kadSkipTags
  split
  · exact nofun
  next h =>
  rw [bytesAt_of_le (by omega), Option.bind_eq_bind, Option.bind_some, kadSkipLoop_eq]
  exact nofun

/-! ## One tag -/

theorem writeLe32_readLe32 (b0 b1 b2 b3 : UInt8) (s : Bytes) :
    writeLe32 (readLe32 (b0 :: b1 :: b2 :: b3 :: s)) = [b0, b1, b2, b3] := by
  have h := toNat_readLe32 (b0 :: b1 :: b2 :: b3 :: s)
  have h0 := b0.toNat_lt
  have h1 := b1.toNat_lt
  have h2 := b2.toNat_lt
  have h3 := b3.toNat_lt
  simp only [List.getD_cons_zero, List.getD_cons_succ] at h
  simp only [writeLe32, List.cons.injEq, ← UInt8.toNat_inj, UInt32.toNat_toUInt8,
    UInt32.toNat_shiftRight, Nat.shiftRight_eq_div_pow, h, and_true]
  refine ⟨?_, ?_, ?_, ?_⟩
  all_goals simp
  all_goals omega

theorem writeLe16_readLe16 (b0 b1 : UInt8) (s : Bytes) :
    writeLe16 (readLe16 (b0 :: b1 :: s)) = [b0, b1] := by
  have h := toNat_readLe16 (b0 :: b1 :: s)
  have h0 := b0.toNat_lt
  have h1 := b1.toNat_lt
  simp only [List.getD_cons_zero, List.getD_cons_succ] at h
  simp only [writeLe16, List.cons.injEq, ← UInt8.toNat_inj, UInt16.toNat_toUInt8,
    UInt16.toNat_shiftRight, Nat.shiftRight_eq_div_pow, h, and_true]
  constructor
  all_goals simp
  all_goals omega

namespace KadForm

/-- The length of a value and of what stands in front of it. -/
def size (n : Nat) (form : KadForm) : Nat := (form.header n).length + n

/-- The length is not too big for the sum to be a `uint32_t`. -/
def Small (n : Nat) (form : KadForm) : Prop := form = .blob → n + 4 < 2 ^ 32

/-- The length of a value that stands here is found. -/
theorem lenOf_header {form : KadForm} {v : Bytes} (hfits : form.Fits v.length)
    (hsmall : form.Small v.length) (rest : Bytes) :
    form.lenOf (form.header v.length ++ (v ++ rest)) = some (form.size v.length) := by
  cases form with
  | fixed n =>
    obtain rfl : v.length = n := hfits
    simp [lenOf, size, header]
  | string =>
    have hn : v.length < 2 ^ 8 := hfits
    simpa [lenOf, size, header] using hn
  | blob =>
    have hn : v.length + 4 < 2 ^ 32 := hsmall rfl
    have hlen : ¬ (writeLe32 (UInt32.ofNat v.length) ++ (v ++ rest)).length < 4 := by
      simp [writeLe32]
    rw [lenOf, header, if_neg hlen, readLe32_writeLe32]
    have : (4 + UInt32.ofNat v.length).toNat = 4 + v.length := by
      rw [UInt32.toNat_add, UInt32.toNat_ofNat_of_lt' (by simp [UInt32.size]; omega)]
      exact Nat.mod_eq_of_lt (by simpa [Nat.add_comm] using hn)
    rw [this]
    rfl
  | bsob =>
    have hn : v.length < 2 ^ 16 := hfits
    have hlen : ¬ (writeLe16 (UInt16.ofNat v.length) ++ (v ++ rest)).length < 2 := by
      simp [writeLe16]
    rw [lenOf, header, if_neg hlen, readLe16_writeLe16, UInt16.toNat_ofNat_of_lt' hn]
    rfl

/-- What is behind the length of a value is one, unless it is a blob that is too big. -/
theorem of_lenOf {form : KadForm} {r : Bytes} {n : Nat} (h : form.lenOf r = some n)
    (hn : n ≤ r.length) :
    (∃ v rest, form.Fits v.length ∧ r = form.header v.length ++ (v ++ rest) ∧
      n = form.size v.length) ∨
      form = .blob ∧ ∃ (len : UInt32) (rest : Bytes), 2 ^ 32 ≤ len.toNat + 4 ∧
        r = writeLe32 len ++ rest := by
  cases form with
  | fixed k =>
    obtain rfl : k = n := Option.some.inj h
    have hlen : (r.take k).length = k := List.length_take_of_le hn
    exact .inl ⟨r.take k, r.drop k, hlen, (List.take_append_drop k r).symm, by
      rw [hlen, size, header, List.length_nil, Nat.zero_add]⟩
  | string =>
    obtain - | ⟨b, r⟩ := r
    · exact nomatch h
    have hb : 1 + b.toNat = n := Option.some.inj h
    have hlen : (r.take b.toNat).length = b.toNat :=
      List.length_take_of_le (by rw [List.length_cons] at hn; omega)
    refine .inl ⟨r.take b.toNat, r.drop b.toNat, ?_, ?_, ?_⟩
    · rw [Fits, hlen]
      exact b.toNat_lt
    · rw [hlen, header, UInt8.ofNat_toNat, List.take_append_drop, List.singleton_append]
    · rw [hlen, ← hb]
      rfl
  | blob =>
    obtain - | ⟨b0, - | ⟨b1, - | ⟨b2, - | ⟨b3, r⟩⟩⟩⟩ := r
    iterate 4 exact nomatch h
    have hread : b0 :: b1 :: b2 :: b3 :: r = writeLe32 (readLe32 (b0 :: b1 :: b2 :: b3 :: r)) ++ r :=
      (congrArg (· ++ r) (writeLe32_readLe32 b0 b1 b2 b3 r)).symm
    have hb : (4 + readLe32 (b0 :: b1 :: b2 :: b3 :: r)).toNat = n := Option.some.inj h
    generalize readLe32 (b0 :: b1 :: b2 :: b3 :: r) = len at *
    by_cases hwrap : 2 ^ 32 ≤ len.toNat + 4
    · exact .inr ⟨rfl, len, r, hwrap, hread⟩
    have hsum : (4 + len).toNat = 4 + len.toNat := by
      rw [UInt32.toNat_add]
      exact Nat.mod_eq_of_lt (by change 4 + _ < _; omega)
    rw [hsum] at hb
    have hlen : (r.take len.toNat).length = len.toNat :=
      List.length_take_of_le (by simp only [List.length_cons] at hn; omega)
    refine .inl ⟨r.take len.toNat, r.drop len.toNat, ?_, ?_, ?_⟩
    · rw [Fits, hlen]
      exact len.toNat_lt
    · rw [hlen, header, UInt32.ofNat_toNat, List.take_append_drop]
      exact hread
    · rw [hlen, ← hb]
      rfl
  | bsob =>
    obtain - | ⟨b0, - | ⟨b1, r⟩⟩ := r
    iterate 2 exact nomatch h
    have hread : b0 :: b1 :: r = writeLe16 (readLe16 (b0 :: b1 :: r)) ++ r :=
      (congrArg (· ++ r) (writeLe16_readLe16 b0 b1 r)).symm
    have hb : 2 + (readLe16 (b0 :: b1 :: r)).toNat = n := Option.some.inj h
    generalize readLe16 (b0 :: b1 :: r) = len at *
    have hlen : (r.take len.toNat).length = len.toNat :=
      List.length_take_of_le (by simp only [List.length_cons] at hn; omega)
    refine .inl ⟨r.take len.toNat, r.drop len.toNat, ?_, ?_, ?_⟩
    · rw [Fits, hlen]
      exact len.toNat_lt
    · rw [hlen, header, UInt16.ofNat_toNat, List.take_append_drop]
      exact hread
    · rw [hlen, ← hb]
      rfl

end KadForm

theorem type_of_blob {type : UInt8} (h : kadForm type = some .blob) : type = 0x07 := by
  rw [kadForm] at h
  split at h
  case h_10 hseven => exact UInt8.toNat_inj.mp hseven
  case h_12 => split at h <;> exact nomatch h
  all_goals exact nomatch h

theorem toNat_ofNat_length {name : Bytes} (h : name.length < 2 ^ 8) :
    (UInt8.ofNat name.length).toNat = name.length := UInt8.toNat_ofNat_of_lt' h

/-- A tag is skipped by its name, its form and what is behind it. -/
theorem tagLen_cons (type : UInt8) {name : Bytes} (h : name.length < 2 ^ 8) (r : Bytes) :
    tagLen (type :: UInt8.ofNat name.length :: (name ++ r)) =
      (kadForm type).bind fun form => (form.lenOf r).bind fun valueLen =>
        if r.length < valueLen then none else some (2 + name.length + valueLen) := by
  have hlt (n : Nat) : (type :: UInt8.ofNat name.length :: (name ++ r)).length <
      2 + name.length + n ↔ r.length < n := by
    simp only [List.length_cons, List.length_append]
    omega
  have hdrop : (type :: UInt8.ofNat name.length :: (name ++ r)).drop (2 + name.length) = r := by
    rw [Nat.add_comm, List.drop_succ_cons, List.drop_succ_cons, List.drop_left]
  have h2 : ¬ (type :: UInt8.ofNat name.length :: (name ++ r)).length < 2 := by
    simp only [List.length_cons]
    omega
  rw [tagLen, if_neg h2]
  simp only [List.getD_cons_zero, List.getD_cons_succ, toNat_ofNat_length h, hdrop, hlt]
  exact if_neg (mt (hlt 0).mp (Nat.not_lt_zero _))

/-- Bytes that are long enough are a type, a name and what is behind it. -/
theorem exists_of_tagLen {s : Bytes} {k : Nat} (h : tagLen s = some k) :
    ∃ (type : UInt8) (name r : Bytes), name.length < 2 ^ 8 ∧
      s = type :: UInt8.ofNat name.length :: (name ++ r) := by
  obtain - | ⟨type, - | ⟨n, s⟩⟩ := s
  iterate 2 exact nomatch h
  have hn : n.toNat ≤ s.length := by
    by_contra hlt
    have hshort : (type :: n :: s).length < 2 + ((type :: n :: s).getD 1 0).toNat := by
      simp only [List.length_cons, List.getD_cons_succ, List.getD_cons_zero]
      omega
    rw [tagLen, if_neg (by simp only [List.length_cons]; omega)] at h
    dsimp only at h
    rw [if_pos hshort] at h
    exact nomatch h
  refine ⟨type, s.take n.toNat, s.drop n.toNat, ?_, ?_⟩
  · rw [List.length_take_of_le hn]
    exact n.toNat_lt
  · rw [List.length_take_of_le hn, UInt8.ofNat_toNat, List.take_append_drop]

namespace KadTag

variable {t : KadTag} {form : KadForm} {s rest : Bytes} {k : Nat}

theorem render_append (h : kadForm t.type = some form) (rest : Bytes) :
    t.render ++ rest = t.type :: UInt8.ofNat t.name.length ::
      (t.name ++ (form.header t.value.length ++ (t.value ++ rest))) := by
  simp only [render, h, Option.map_some, Option.getD_some, List.cons_append, List.append_assoc]

theorem length_render (h : kadForm t.type = some form) :
    t.render.length = 2 + t.name.length + form.size t.value.length := by
  simp only [render, h, Option.map_some, Option.getD_some, List.length_cons, List.length_append,
    KadForm.size]
  omega

/-- The length of the value is not too big for the code. -/
def Small (t : KadTag) : Prop := ∀ form, kadForm t.type = some form → form.Small t.value.length

theorem WF.tagLen_render (h : t.WF) (hs : t.Small) (rest : Bytes) :
    tagLen (t.render ++ rest) = some t.render.length := by
  obtain ⟨hname, form, hform, hfits⟩ := h
  have hle : ¬ (form.header t.value.length ++ (t.value ++ rest)).length <
      form.size t.value.length := by
    simp only [KadForm.size, List.length_append]
    omega
  rw [render_append hform, tagLen_cons _ hname, hform, Option.bind_some,
    KadForm.lenOf_header hfits (hs form hform), Option.bind_some, if_neg hle, length_render hform]

theorem WF.small (h : t.WF) (hwraps : ¬ Wraps (t.render ++ rest)) : t.Small := by
  obtain ⟨hname, form, hform, hfits⟩ := h
  rintro form' hform' rfl
  obtain rfl : form = .blob := Option.some.inj (hform.symm.trans hform')
  by_contra hbig
  have hlen : t.value.length < 2 ^ 32 := hfits
  refine hwraps ⟨t.name, UInt32.ofNat t.value.length, t.value ++ rest, hname, ?_, ?_⟩
  · rw [UInt32.toNat_ofNat_of_lt' hlen]
    omega
  · rw [render_append hform, type_of_blob hform]
    rfl

end KadTag

/-- What is skipped is a tag, unless the length wraps around. -/
theorem of_tagLen {s : Bytes} {k : Nat} (h : tagLen s = some k) :
    (∃ (t : KadTag) (rest : Bytes), t.WF ∧ s = t.render ++ rest ∧ k = t.render.length) ∨
      Wraps s := by
  obtain ⟨type, name, r, hname, rfl⟩ := exists_of_tagLen h
  rw [tagLen_cons _ hname] at h
  obtain ⟨form, hform, h⟩ := Option.bind_eq_some_iff.mp h
  obtain ⟨valueLen, hlen, h⟩ := Option.bind_eq_some_iff.mp h
  split at h
  · exact nomatch h
  next hle =>
  obtain rfl := Option.some.inj h
  obtain ⟨v, rest, hfits, rfl, rfl⟩ | ⟨rfl, len, rest, hwrap, rfl⟩ :=
    KadForm.of_lenOf hlen (Nat.not_lt.mp hle)
  · have hf : kadForm (KadTag.mk type name v).type = some form := hform
    exact .inl ⟨⟨type, name, v⟩, rest, ⟨hname, form, hform, hfits⟩,
      (KadTag.render_append hf rest).symm, (KadTag.length_render hf).symm⟩
  · exact .inr ⟨name, len, rest, hname, hwrap, by rw [type_of_blob hform]⟩

/-- A length that wraps around is taken for one that is too short. -/
theorem Wraps.tagLen_eq {s : Bytes} (h : Wraps s) : ∃ k, tagLen s = some k ∧
    ∀ (t : KadTag) (rest : Bytes), t.WF → s = t.render ++ rest → k < t.render.length := by
  obtain ⟨name, len, rest, hname, hwrap, rfl⟩ := h
  have hlt := len.toNat_lt
  have hsum : (4 + len).toNat = 4 + len.toNat - 2 ^ 32 := by
    rw [UInt32.toNat_add]
    change (4 + len.toNat) % 2 ^ 32 = _
    omega
  have hfour : (writeLe32 len ++ rest).length = 4 + rest.length := by
    rw [List.length_append]
    rfl
  have hlen : KadForm.blob.lenOf (writeLe32 len ++ rest) = some (4 + len.toNat - 2 ^ 32) := by
    rw [KadForm.lenOf, if_neg (by omega), readLe32_writeLe32, hsum]
  have hblob : kadForm 0x07 = some .blob := rfl
  refine ⟨2 + name.length + (4 + len.toNat - 2 ^ 32), ?_, fun t rest' ht heq => ?_⟩
  · rw [tagLen_cons _ hname, hblob, Option.bind_some, hlen, Option.bind_some,
      if_neg (by omega)]
  · obtain ⟨hname', form, hform, -⟩ := ht
    rw [KadTag.render_append hform] at heq
    obtain ⟨htype, heq⟩ := List.cons.inj heq
    have hnames : name.length = t.name.length := by
      have := congrArg UInt8.toNat (List.cons.inj heq).1
      rwa [toNat_ofNat_length hname, toNat_ofNat_length hname'] at this
    rw [← htype, hblob] at hform
    obtain rfl := Option.some.inj hform
    rw [KadTag.length_render (by rw [← htype]; exact hblob), ← hnames]
    have hsize : KadForm.blob.size t.value.length = 4 + t.value.length := rfl
    omega

/-! ## A list of tags -/

variable {n : Nat} {s : Bytes} {k : Nat} {tags : List KadTag} {rest : Bytes}

theorem renderTags_cons (t : KadTag) (tags : List KadTag) (rest : Bytes) :
    renderTags (t :: tags) ++ rest = t.render ++ (renderTags tags ++ rest) := by
  rw [renderTags, List.flatMap_cons, List.append_assoc]
  rfl

theorem length_renderTags_cons (t : KadTag) (tags : List KadTag) :
    (renderTags (t :: tags)).length = t.render.length + (renderTags tags).length := by
  rw [renderTags, List.flatMap_cons, List.length_append]
  rfl

theorem tagsLen_succ (h : tagLen s = some k) :
    tagsLen (n + 1) s = (tagsLen n (s.drop k)).map (k + ·) := by
  rw [tagsLen, h, Option.bind_some]

theorem tagsLen_one (s : Bytes) : tagsLen 1 s = tagLen s := by
  rw [tagsLen]
  cases tagLen s with
  | none => rfl
  | some k => rfl

/-- Tags that are not too big are skipped. -/
theorem tagsLen_render (hwf : ∀ t ∈ tags, t.WF) (hsmall : ∀ t ∈ tags, t.Small) (rest : Bytes) :
    tagsLen tags.length (renderTags tags ++ rest) = some (renderTags tags).length := by
  induction tags with
  | nil => rfl
  | cons t tags ih =>
    obtain ⟨ht, hwf⟩ := List.forall_mem_cons.mp hwf
    obtain ⟨hs, hsmall⟩ := List.forall_mem_cons.mp hsmall
    rw [List.length_cons, renderTags_cons, tagsLen_succ (ht.tagLen_render hs _), List.drop_left,
      ih hwf hsmall, Option.map_some, length_renderTags_cons]

theorem NoWrap.tail {t : KadTag} (h : NoWrap (n + 1) (t.render ++ s)) (ht : t.WF) :
    NoWrap n s := by
  rintro tags rest hwf hlt rfl
  exact h (t :: tags) rest (List.forall_mem_cons.mpr ⟨ht, hwf⟩) (Nat.succ_lt_succ hlt)
    (renderTags_cons t tags rest).symm

theorem NoWrap.small (h : NoWrap tags.length (renderTags tags ++ rest))
    (hwf : ∀ t ∈ tags, KadTag.WF t) : ∀ t ∈ tags, t.Small := by
  induction tags with
  | nil => exact nofun
  | cons t tags ih =>
    rw [List.length_cons, renderTags_cons] at h
    obtain ⟨ht, hwf⟩ := List.forall_mem_cons.mp hwf
    refine List.forall_mem_cons.mpr ⟨?_, ih (h.tail ht) hwf⟩
    exact ht.small (h [] _ nofun (Nat.succ_pos _) rfl)

/-- What is skipped is a list of tags, where no length wraps around. -/
theorem tagsLen_iff (h : NoWrap n s) : tagsLen n s = some k ↔ TagsAre n s k := by
  constructor
  · intro hlen
    induction n generalizing s k with
    | zero => exact ⟨[], s, nofun, rfl, rfl, (Option.some.inj hlen).symm⟩
    | succ n ih =>
      obtain ⟨k', htag, htags⟩ := Option.bind_eq_some_iff.mp hlen
      obtain ⟨t, rest, ht, rfl, rfl⟩ | hwraps := of_tagLen htag
      · rw [List.drop_left] at htags
        obtain ⟨k, hlist, rfl⟩ := Option.map_eq_some_iff.mp htags
        obtain ⟨tags, rest, hwf, rfl, rfl, rfl⟩ := ih (h.tail ht) hlist
        exact ⟨t :: tags, rest, List.forall_mem_cons.mpr ⟨ht, hwf⟩, rfl,
          (renderTags_cons t tags rest).symm, (length_renderTags_cons t tags).symm⟩
      · exact absurd hwraps (h [] s nofun (Nat.succ_pos n) rfl)
  · rintro ⟨tags, rest, hwf, rfl, rfl, rfl⟩
    exact tagsLen_render hwf (h.small hwf) rest

/-- The lists of up to so many tags are told from what is no list. -/
def SkipsRight (n : Nat) (s : Bytes) : Prop :=
  ∀ m ≤ n, ∀ k, tagsLen m s = some k ↔ TagsAre m s k

theorem tagsAre_one {t : KadTag} (ht : t.WF) (s : Bytes) : TagsAre 1 (t.render ++ s) t.render.length :=
  ⟨[t], s, by simpa using ht, rfl, by simp [renderTags], by simp [renderTags]⟩

theorem SkipsRight.tagLen_eq {t : KadTag} (h : SkipsRight (n + 1) (t.render ++ s)) (ht : t.WF) :
    tagLen (t.render ++ s) = some t.render.length :=
  tagsLen_one (t.render ++ s) ▸ (h 1 (by omega) _).mpr (tagsAre_one ht s)

theorem SkipsRight.tail {t : KadTag} (h : SkipsRight (n + 1) (t.render ++ s)) (ht : t.WF) :
    SkipsRight n s := by
  intro m hm k
  have hsucc : tagsLen (m + 1) (t.render ++ s) = (tagsLen m s).map (t.render.length + ·) := by
    rw [tagsLen_succ (h.tagLen_eq ht), List.drop_left]
  have hiff := h (m + 1) (Nat.succ_le_succ hm) (t.render.length + k)
  rw [hsucc] at hiff
  constructor
  · intro hlen
    rw [hlen, Option.map_some] at hiff
    obtain ⟨tags, rest, hwf, hcount, heq, hk⟩ := hiff.mp rfl
    obtain - | ⟨t', tags⟩ := tags
    · exact nomatch hcount
    obtain ⟨ht', hwf⟩ := List.forall_mem_cons.mp hwf
    -- the tag that is found has the length of the first one
    rw [renderTags_cons] at heq
    have hlength : t'.render.length = t.render.length := by
      have hfirst := h.tagLen_eq ht
      rw [heq] at h hfirst
      exact Option.some.inj ((h.tagLen_eq ht').symm.trans hfirst)
    rw [length_renderTags_cons, hlength] at hk
    refine ⟨tags, rest, hwf, Nat.succ.inj hcount, ?_, Nat.add_left_cancel hk⟩
    exact (List.append_inj heq hlength.symm).2
  · rintro ⟨tags, rest, hwf, rfl, rfl, rfl⟩
    obtain ⟨k', hlen, hk⟩ := Option.map_eq_some_iff.mp (hiff.mpr ⟨t :: tags, rest,
      List.forall_mem_cons.mpr ⟨ht, hwf⟩, rfl, (renderTags_cons t tags rest).symm,
      (length_renderTags_cons t tags).symm⟩)
    rw [hlen, Nat.add_left_cancel hk]

/-- The lists are told apart if and only if no length wraps around. -/
theorem skipsRight_iff : SkipsRight n s ↔ NoWrap n s := by
  constructor
  · intro h tags rest hwf hlt hs hwraps
    induction tags generalizing n s with
    | nil =>
      obtain rfl : s = rest := hs
      obtain ⟨k, hlen, hshort⟩ := hwraps.tagLen_eq
      rw [← tagsLen_one] at hlen
      obtain ⟨tags, rest, hwf, hcount, heq, rfl⟩ := (h 1 hlt k).mp hlen
      obtain ⟨t, rfl⟩ := List.length_eq_one_iff.mp hcount
      rw [renderTags_cons] at heq
      have := hshort t _ (hwf t (List.mem_singleton_self t)) heq
      rw [length_renderTags_cons] at this
      omega
    | cons t tags ih =>
      obtain ⟨n, rfl⟩ := Nat.exists_eq_add_of_lt (Nat.zero_lt_of_lt hlt)
      obtain ⟨ht, hwf⟩ := List.forall_mem_cons.mp hwf
      rw [renderTags_cons] at hs
      subst hs
      rw [Nat.zero_add] at h hlt
      exact ih (h.tail ht) hwf (Nat.lt_of_succ_lt_succ hlt) rfl
  · exact fun h m hm k => tagsLen_iff fun tags rest hwf hlt => h tags rest hwf (hlt.trans_le hm)

theorem tagLen_le (h : tagLen s = some k) : k ≤ s.length := by
  obtain ⟨type, name, r, hname, rfl⟩ := exists_of_tagLen h
  rw [tagLen_cons _ hname] at h
  obtain ⟨form, -, h⟩ := Option.bind_eq_some_iff.mp h
  obtain ⟨valueLen, -, h⟩ := Option.bind_eq_some_iff.mp h
  split at h
  · exact nomatch h
  · simp only [Option.some.injEq] at h
    simp only [List.length_cons, List.length_append]
    omega

theorem tagsLen_le (h : tagsLen n s = some k) : k ≤ s.length := by
  induction n generalizing s k with
  | zero => exact Option.some.inj h ▸ Nat.zero_le _
  | succ n ih =>
    obtain ⟨k', htag, htags⟩ := Option.bind_eq_some_iff.mp h
    obtain ⟨k, hlist, rfl⟩ := Option.map_eq_some_iff.mp htags
    have h1 := tagLen_le htag
    have h2 := ih hlist
    rw [List.length_drop] at h2
    omega

/-- What is skipped ends inside the data. -/
theorem kadSkipTags_le {p : Bytes} {off off' : Nat} (h : kadSkipTags p off = some (some off')) :
    off' ≤ p.length := by
  rw [kadSkipTags] at h
  split at h
  · exact nomatch h
  next hlt =>
  rw [bytesAt_of_le (by omega), Option.bind_eq_bind, Option.bind_some, kadSkipLoop_eq] at h
  obtain ⟨k, hk, rfl⟩ := Option.map_eq_some_iff.mp (Option.some.inj h)
  have := tagsLen_le hk
  rw [List.length_drop] at this
  omega

end FluxCore.Ed2k
