import FluxCore.Bitfield.Refinement
import FluxCore.Lib.Run
import FluxCore.Swarm.PieceStatMan

/-!
# The counts are those of the swarm

`Tally` notes beside a torrent how often its storage has counted each piece. The counts are the
numbers of connected peers that have a piece and what the storage counted (`Tallied`); so they say
what the swarm has as long as the storage counts no piece twice (`sums`).
-/

namespace FluxCore.Swarm

open Bitfield (BitfieldMan Field)

/-! ## Lists of counts -/

/-- The counts of `n` pieces. -/
def Holds (counts : List Nat) (n : Nat) (f : Nat → Nat) : Prop :=
  counts.length = n ∧ ∀ i < n, counts[i]? = some (f i)

variable {counts : List Nat} {n : Nat} {f f' : Nat → Nat}

theorem Holds.mapIdx {g : Nat → Nat → Nat} (h : Holds counts n f) (hg : ∀ i < n, g i (f i) = f' i) :
    Holds (counts.mapIdx g) n f' := by
  refine ⟨List.length_mapIdx.trans h.1, fun i hi => ?_⟩
  rw [List.getElem?_mapIdx, h.2 i hi, Option.map_some, hg i hi]

theorem Holds.congr (h : Holds counts n f) (hf : ∀ i < n, f i = f' i) : Holds counts n f' :=
  ⟨h.1, fun i hi => by rw [h.2 i hi, hf i hi]⟩

theorem Holds.addPiece {index : Nat} (h : Holds counts n f)
    (hother : ∀ i < n, i ≠ index → f i = f' i) (hindex : index < n → inc (f index) = f' index) :
    Holds (PieceStatMan.addPiece counts index) n f' := by
  refine ⟨List.length_modify .. |>.trans h.1, fun i hi => ?_⟩
  rw [PieceStatMan.addPiece, List.getElem?_modify, h.2 i hi, Option.map_eq_map, Option.map_some]
  by_cases hii : index = i
  · subst hii
    rw [if_pos rfl]
    exact congrArg some (hindex hi)
  · rw [if_neg hii]
    exact congrArg some (hother i hi (Ne.symm hii))

theorem inc_of_lt {x : Nat} (h : x < INT_MAX) : inc x = x + 1 := if_pos h

theorem sub_eq (x : Nat) : sub x = x - 1 := by
  unfold sub
  split <;> omega

/-! ## Bit fields of peers -/

theorem test_setBits {nbits : Nat} (f : Field nbits) (is : List Nat) {i : Nat} (hi : i < nbits) :
    (f.setBits is true).test i = (decide (i ∈ is) || f.test i) := by
  induction is generalizing f with
  | nil => simp [Field.setBits]
  | cons j is ih =>
    have hcons : f.setBits (j :: is) true = (f.setBitInternal j true).2.setBits is true := rfl
    rw [hcons, ih]
    by_cases hj : j < nbits
    · rw [Field.test_setBitInternal hj]
      by_cases hij : i = j <;> simp [hij]
    · rw [Field.setBitInternal_of_le (not_lt.mp hj)]
      have hne : i ≠ j := by omega
      simp [hne]

/-- A peer of a torrent of `n` pieces whose completed length is up to date. -/
structure Peer.Kept (n : Nat) (p : Peer) : Prop where
  blocks : p.bitfieldMan.blocks = n
  fresh : p.bitfieldMan.Fresh

namespace Peer

variable {p : Peer}

theorem kept_allocate (pieceLength totalLength : Nat) (fast : Bool) :
    (allocate pieceLength totalLength fast).Kept (Storage.blockCount pieceLength totalLength) :=
  ⟨rfl, BitfieldMan.fresh_updateCache _⟩

theorem hasPiece_allocate (pieceLength totalLength : Nat) (fast : Bool) (i : Nat) :
    (allocate pieceLength totalLength fast).hasPiece i = false := Field.test_zero i

theorem Kept.updateBitfield (h : p.Kept n) (index : Nat) : (p.updateBitfield index).Kept n :=
  ⟨h.blocks, BitfieldMan.fresh_updateCache _⟩

theorem hasPiece_updateBitfield (h : p.Kept n) {index : Nat} (hindex : index < n) (i : Nat) :
    (p.updateBitfield index).hasPiece i = if i = index then true else p.hasPiece i :=
  Field.test_setBitInternal (h.blocks ▸ hindex) true i

theorem Kept.setBitfield (h : p.Kept n) (bytes : Bytes) : (p.setBitfield bytes).Kept n := by
  refine ⟨(p.bitfieldMan.blocks_setBitfield bytes).trans h.blocks, ?_⟩
  change (p.bitfieldMan.setBitfield bytes).Fresh
  unfold BitfieldMan.setBitfield
  split
  · exact BitfieldMan.fresh_updateCache _
  · exact h.fresh

theorem hasPiece_setBitfield (h : p.Kept n) {bytes : Bytes} (hlen : bytes.length = (n + 7) / 8)
    (i : Nat) : (p.setBitfield bytes).hasPiece i = Bitfield.test bytes i :=
  congrArg (Bitfield.test · i) (p.bitfieldMan.bytes_setBitfield (hlen.trans (by rw [h.blocks])))

theorem Kept.setAllBitfield (h : p.Kept n) : p.setAllBitfield.Kept n :=
  ⟨h.blocks, BitfieldMan.fresh_updateCache _⟩

theorem hasPiece_setAllBitfield (h : p.Kept n) {i : Nat} (hi : i < n) :
    p.setAllBitfield.hasPiece i = true := by
  have hlt : i < p.bitfieldMan.blocks := h.blocks ▸ hi
  change (p.bitfieldMan.bitfield.setBits (List.range p.bitfieldMan.blocks) true).test i = true
  rw [test_setBits _ _ hlt, decide_eq_true (List.mem_range.mpr hlt), Bool.true_or]

theorem getBlockLength_pos (m : BitfieldMan) {i : Nat} (hi : i < m.blocks) :
    0 < m.getBlockLength i := by
  have hcount : i < m.view.countBlock := by rwa [m.countBlock_view]
  have hend := Storage.BitfieldMan.mul_add_getBlockLength hcount
  obtain ⟨hpos, -⟩ := Storage.BitfieldMan.blockCount_pos (m := m.view) (by omega)
  obtain ⟨hlast, -⟩ := Storage.BitfieldMan.last_bounds (m := m.view) (by omega)
  have hle : i * m.view.blockLength ≤ (m.view.countBlock - 1) * m.view.blockLength :=
    Nat.mul_le_mul_right _ (by omega)
  rw [BitfieldMan.getBlockLength_view, Storage.BitfieldMan.blockEnd, Nat.succ_mul] at hend
  omega

/-- A peer has completed something if and only if it has a piece. -/
theorem getCompletedLength_pos_iff (h : p.Kept n) :
    0 < p.bitfieldMan.getCompletedLength ↔ ∃ i < n, p.hasPiece i = true := by
  rw [h.fresh.counted.getCompletedLength, Finset.sum_pos_iff]
  constructor
  · rintro ⟨i, hi, -⟩
    obtain ⟨hlt, htest⟩ := Bitfield.mem_setBits.mp hi
    exact ⟨i, h.blocks ▸ hlt, htest⟩
  · rintro ⟨i, hi, htest⟩
    have hlt : i < p.bitfieldMan.blocks := h.blocks ▸ hi
    exact ⟨i, Bitfield.mem_setBits.mpr ⟨hlt, htest⟩, getBlockLength_pos _ hlt⟩

end Peer

/-! ## How many peers have a piece -/

/-- The number of connected peers with a piece. -/
def peersWith (commands : List PeerInteractionCommand) (i : Nat) : Nat :=
  commands.countP fun c => c.peer.hasPiece i

variable {commands : List PeerInteractionCommand} {c c' : PeerInteractionCommand} {j : Nat}

theorem peersWith_set (h : commands[j]? = some c) (c' : PeerInteractionCommand) (i : Nat) :
    peersWith (commands.set j c') i + (c.peer.hasPiece i).toNat =
      peersWith commands i + (c'.peer.hasPiece i).toNat := by
  obtain ⟨hlt, rfl⟩ := List.getElem?_eq_some_iff.mp h
  obtain ⟨l₁, l₂, hl, -, hset⟩ : ∃ l₁ l₂, commands = l₁ ++ commands[j] :: l₂ ∧ l₁.length = j ∧
      commands.set j c' = l₁ ++ c' :: l₂ := List.exists_of_set hlt
  have hold : peersWith commands i =
      peersWith (l₁ ++ commands[j] :: l₂) i := congrArg (peersWith · i) hl
  rw [hset, hold]
  simp only [peersWith, List.countP_append, List.countP_cons]
  cases commands[j].peer.hasPiece i <;> cases c'.peer.hasPiece i <;> simp <;> omega

theorem peersWith_eraseIdx (h : commands[j]? = some c) (i : Nat) :
    peersWith (commands.eraseIdx j) i + (c.peer.hasPiece i).toNat = peersWith commands i := by
  obtain ⟨hlt, rfl⟩ := List.getElem?_eq_some_iff.mp h
  have hsplit : commands = commands.take j ++ commands[j] :: commands.drop (j + 1) := by simp
  have hold := congrArg (peersWith · i) hsplit
  rw [List.eraseIdx_eq_take_drop_succ]
  simp only [peersWith, List.countP_append, List.countP_cons] at hold ⊢
  rw [hold]
  cases commands[j].peer.hasPiece i <;> simp
  omega

theorem peersWith_le (h : commands[j]? = some c) (i : Nat) :
    peersWith commands i + 1 ≤ commands.length + (c.peer.hasPiece i).toNat := by
  have herase := peersWith_eraseIdx h i
  have hle : peersWith (commands.eraseIdx j) i ≤ (commands.eraseIdx j).length :=
    List.countP_le_length
  have hlt := (List.getElem?_eq_some_iff.mp h).1
  rw [List.length_eraseIdx, if_pos hlt] at hle
  omega

/-! ## The tally -/

/-- A torrent, and how often its storage has counted each piece. -/
structure Tally where
  torrent : Torrent
  own : Nat → Nat := fun _ => 0

namespace Tally

variable (t : Tally)

/-- The pieces that the storage counts in an event. -/
def counted : Torrent.Event → Nat → Bool
  | .completePiece index, i =>
    i = index && index < t.torrent.bitfieldMan.blocks && !t.torrent.allDownloadFinished
  | .setBitfield bitfield, i => Bitfield.test bitfield i
  | _, _ => false

def step (e : Torrent.Event) : Tally where
  torrent := t.torrent.step e
  own i := t.own i + (t.counted e i).toNat

/-- The counts say what the swarm has: a count is the number of connected peers with the piece, and
one more if the storage has counted it. Since a count is decremented only for a piece that the peer
of a message or of a connection that ends is recorded to have, none is decremented at zero. -/
structure Sums : Prop where
  counts : ∀ i < t.torrent.getNumPieces, t.torrent.counts[i]? =
    some (peersWith t.torrent.commands i + if t.own i = 0 then 0 else 1)
  backed : ∀ c ∈ t.torrent.commands, ∀ i < t.torrent.getNumPieces, c.peer.hasPiece i = true →
    t.torrent.counts[i]? ≠ some 0

/-- The storage counts only pieces it has not counted yet, and there are fewer connections than a
count can say. -/
def Once (e : Torrent.Event) : Prop :=
  t.torrent.commands.length < INT_MAX ∧
    ∀ i < t.torrent.getNumPieces, t.counted e i = true → t.own i = 0

instance (e : Torrent.Event) : Decidable (t.Once e) := inferInstanceAs (Decidable (_ ∧ _))

structure Tallied : Prop where
  blocks : t.torrent.bitfieldMan.blocks = t.torrent.getNumPieces
  kept : ∀ c ∈ t.torrent.commands, c.peer.Kept t.torrent.getNumPieces
  counts : Holds t.torrent.counts t.torrent.getNumPieces fun i =>
    peersWith t.torrent.commands i + t.own i
  own : ∀ i < t.torrent.getNumPieces, t.own i ≤ 1

variable {t}

theorem Tallied.sums (h : t.Tallied) : t.Sums := by
  refine ⟨fun i hi => ?_, fun c hc i hi hhas hzero => ?_⟩
  · have hown := h.own i hi
    rw [h.counts.2 i hi]
    dsimp only
    split <;> congr 2
    omega
  · have hcount := h.counts.2 i hi
    rw [hzero, Option.some.injEq] at hcount
    have hnone := List.countP_eq_zero.mp (Nat.eq_zero_of_add_eq_zero_right hcount.symm) c hc
    exact hnone hhas

/-- A handler moves the counts by the difference of what the peer has and had. -/
theorem holds_doReceivedAction {n : Nat} {t : Torrent} {p : Peer} {m : BtMessage} {f : Nat → Nat}
    (hp : p.Kept n) (hm : m.validate n = .ok ()) (hf : Holds t.counts n f)
    (hpos : ∀ i < n, (p.hasPiece i).toNat ≤ f i)
    (hmax : ∀ i < n, f i < INT_MAX + (p.hasPiece i).toNat) :
    (t.doReceivedAction p m).2.1.Kept n ∧ Holds (t.doReceivedAction p m).1 n fun i =>
      f i - (p.hasPiece i).toNat + ((t.doReceivedAction p m).2.1.hasPiece i).toNat := by
  have hsame : Holds t.counts n fun i => f i - (p.hasPiece i).toNat + (p.hasPiece i).toNat :=
    hf.congr fun i hi => (Nat.sub_add_cancel (hpos i hi)).symm
  have hinc : ∀ i < n, p.hasPiece i = false → inc (f i) = f i + 1 := fun i hi hno => by
    have := hmax i hi
    rw [hno] at this
    exact inc_of_lt this
  cases m with
  | btHave index =>
    change (t.receiveHave p index).2.1.Kept n ∧ Holds (t.receiveHave p index).1 n fun i =>
      f i - (p.hasPiece i).toNat + ((t.receiveHave p index).2.1.hasPiece i).toNat
    have hlt : index < n := by
      by_contra hge
      simp [BtMessage.validate, Bt.checkIndex, hge] at hm
    unfold Torrent.receiveHave
    split
    next hno =>
      have hno : p.hasPiece index = false := by simpa using hno
      refine ⟨hp.updateBitfield index, hf.addPiece (fun i hi hne => ?_) fun _ => ?_⟩
      · rw [Peer.hasPiece_updateBitfield hp hlt, if_neg hne, Nat.sub_add_cancel (hpos i hi)]
      · rw [Peer.hasPiece_updateBitfield hp hlt, if_pos rfl, hno, hinc index hlt hno]
        rfl
    · exact ⟨hp, hsame⟩
  | btBitfield bytes =>
    change (t.receiveBitfield p bytes).2.1.Kept n ∧ Holds (t.receiveBitfield p bytes).1 n fun i =>
      f i - (p.hasPiece i).toNat + ((t.receiveBitfield p bytes).2.1.hasPiece i).toNat
    have hlen : bytes.length = (n + 7) / 8 := by
      by_contra hne
      simp [BtMessage.validate, checkBitfield, hne] at hm
    refine ⟨hp.setBitfield bytes, hf.mapIdx fun i hi => ?_⟩
    have hold : Bitfield.test p.getBitfield i = p.hasPiece i := rfl
    change _ = f i - _ + ((p.setBitfield bytes).hasPiece i).toNat
    rw [Peer.hasPiece_setBitfield hp hlen, hold]
    have := hpos i hi
    cases hhas : p.hasPiece i <;> cases Bitfield.test bytes i <;>
      simp_all [sub_eq]
  | btHaveAll =>
    change (t.receiveHaveAll p).2.1.Kept n ∧ Holds (t.receiveHaveAll p).1 n fun i =>
      f i - (p.hasPiece i).toNat + ((t.receiveHaveAll p).2.1.hasPiece i).toNat
    unfold Torrent.receiveHaveAll
    split
    · exact ⟨hp, hsame⟩
    · have hless : Holds (PieceStatMan.subtractPieceStats t.counts p.getBitfield) n fun i =>
          f i - (p.hasPiece i).toNat := hf.mapIdx fun i _ => by
        change (if p.hasPiece i = true then sub (f i) else f i) = _
        cases p.hasPiece i <;> simp [sub_eq]
      refine ⟨hp.setAllBitfield, hless.mapIdx fun i hi => ?_⟩
      have hall := Peer.hasPiece_setAllBitfield hp hi
      have hlt := hmax i hi
      have hle := hpos i hi
      change (if p.setAllBitfield.hasPiece i = true then inc (f i - (p.hasPiece i).toNat)
        else f i - (p.hasPiece i).toNat) = f i - _ + (p.setAllBitfield.hasPiece i).toNat
      rw [hall, if_pos rfl, inc_of_lt (by omega)]
      rfl
  | btHaveNone =>
    change (t.receiveHaveNone p).2.1.Kept n ∧ Holds (t.receiveHaveNone p).1 n fun i =>
      f i - (p.hasPiece i).toNat + ((t.receiveHaveNone p).2.1.hasPiece i).toNat
    unfold Torrent.receiveHaveNone
    split <;> exact ⟨hp, hsame⟩

/-! ## Events -/

theorem kept_set {n j : Nat} {commands : List PeerInteractionCommand} {c : PeerInteractionCommand}
    (h : ∀ c ∈ commands, c.peer.Kept n) (hc : c.peer.Kept n) :
    ∀ d ∈ commands.set j c, d.peer.Kept n := fun d hmem => by
  rcases List.mem_or_eq_of_mem_set hmem with hmem | rfl
  exacts [h d hmem, hc]

/-- A message is ignored, or it ends the connection or is handled. -/
theorem receive_cases (t : Torrent) (j m) : t.receive j m = t ∨ ∃ c d counts,
    t.commands[j]? = some c ∧ t.receive j m = { t with counts, commands := t.commands.set j d } ∧
      (counts = t.counts ∧ d.peer = c.peer ∨ m.validate t.getNumPieces = .ok () ∧
        counts = (t.doReceivedAction c.peer m).1 ∧ d.peer = (t.doReceivedAction c.peer m).2.1) := by
  unfold Torrent.receive
  split
  · exact .inl rfl
  next c hc =>
    split
    · exact .inl rfl
    · split
      next e _ => exact .inr ⟨c, { c with thrown := some e }, _, hc, rfl, .inl ⟨rfl, rfl⟩⟩
      next hvalid => exact .inr ⟨c, _, _, hc, rfl, .inr ⟨hvalid, rfl, rfl⟩⟩

/-- What a handler leaves, put in place. -/
theorem Tallied.set (h : t.Tallied) {c d : PeerInteractionCommand} {counts : List Nat} {j : Nat}
    (hc : t.torrent.commands[j]? = some c) (hd : d.peer.Kept t.torrent.getNumPieces)
    (hcounts : Holds counts t.torrent.getNumPieces fun i =>
      peersWith t.torrent.commands i + t.own i - (c.peer.hasPiece i).toNat +
        (d.peer.hasPiece i).toNat) :
    Tallied ⟨{ t.torrent with counts, commands := t.torrent.commands.set j d }, t.own⟩ := by
  refine ⟨h.blocks, kept_set h.kept hd, hcounts.congr fun i _ => ?_, h.own⟩
  have hset := peersWith_set hc d i
  have herase := peersWith_eraseIdx hc i
  dsimp only
  omega

theorem Tallied.receive (h : t.Tallied) (hlen : t.torrent.commands.length < INT_MAX) (j m) :
    Tallied ⟨t.torrent.receive j m, t.own⟩ := by
  rcases receive_cases t.torrent j m with heq | ⟨c, d, counts, hc, heq, hor⟩
  · rw [heq]
    exact h
  have hkept := h.kept c (List.mem_of_getElem? hc)
  have herase := peersWith_eraseIdx hc
  rw [heq]
  rcases hor with ⟨rfl, hd⟩ | ⟨hvalid, rfl, hd⟩
  · refine h.set hc (hd ▸ hkept) (h.counts.congr fun i _ => ?_)
    have := herase i
    rw [hd]
    omega
  · have hhandled := holds_doReceivedAction hkept hvalid h.counts
      (fun i _ => by have := herase i; omega) fun i hi => by
        have hle := peersWith_le hc i
        have := h.own i hi
        omega
    refine h.set hc (hd ▸ hhandled.1) (hhandled.2.congr fun i _ => ?_)
    rw [hd]

theorem Tallied.connect (h : t.Tallied) (fast) : Tallied ⟨t.torrent.connect fast, t.own⟩ := by
  refine ⟨h.blocks, ?_, h.counts.congr fun i _ => ?_, h.own⟩
  · refine List.forall_mem_append.mpr ⟨h.kept, List.forall_mem_singleton.mpr ?_⟩
    exact Peer.kept_allocate ..
  · simp [Torrent.connect, peersWith, Peer.hasPiece_allocate]

theorem Tallied.finish (h : t.Tallied) (j) : Tallied ⟨t.torrent.finish j, t.own⟩ := by
  unfold Torrent.finish
  split
  · exact h
  next c hc =>
    have hkept := h.kept c (List.mem_of_getElem? hc)
    have herase := peersWith_eraseIdx hc
    refine ⟨h.blocks, fun d hd => h.kept d (List.mem_of_mem_eraseIdx hd), ?_, h.own⟩
    dsimp only
    split
    · refine h.counts.mapIdx fun i _ => ?_
      have := herase i
      change (if c.peer.hasPiece i = true then _ else _) = _
      cases hhas : c.peer.hasPiece i <;> (simp_all [sub_eq]; try omega)
    next hnone =>
      refine h.counts.congr fun i hi => ?_
      have hno : c.peer.hasPiece i = false := by
        by_contra hhas
        exact hnone ((Peer.getCompletedLength_pos_iff hkept).mpr ⟨i, hi, by simpa using hhas⟩)
      have := herase i
      simp_all

/-- A count that the storage adds to is not at its end. -/
theorem inc_count (hlen : t.torrent.commands.length < INT_MAX) {i : Nat}
    (hnew : t.own i = 0) :
    inc (peersWith t.torrent.commands i + t.own i) =
      peersWith t.torrent.commands i + (t.own i + 1) := by
  have hle : peersWith t.torrent.commands i ≤ t.torrent.commands.length := List.countP_le_length
  rw [inc_of_lt (by omega)]
  omega

theorem Tallied.completePiece (h : t.Tallied) {index : Nat} (hx : t.Once (.completePiece index)) :
    (t.step (.completePiece index)).Tallied := by
  by_cases hcounts : index < t.torrent.bitfieldMan.blocks ∧ t.torrent.allDownloadFinished = false
  · obtain ⟨hindex, hopen⟩ := hcounts
    have hcounted : ∀ i, t.counted (.completePiece index) i = decide (i = index) := fun i => by
      simp [counted, hindex, hopen]
    have htorrent : t.torrent.step (.completePiece index) =
        { t.torrent with
          bitfieldMan := ((t.torrent.bitfieldMan.setBit index).2.unsetUseBit index).2
          counts := PieceStatMan.addPiece t.torrent.counts index } := by
      change t.torrent.completePiece index = _
      unfold Torrent.completePiece
      rw [if_neg (not_not.mpr hindex), if_neg (by simp [hopen])]
    unfold step
    rw [htorrent]
    simp only [hcounted]
    have hnew : index < t.torrent.getNumPieces → t.own index = 0 := fun hlt =>
      hx.2 index hlt (by rw [hcounted]; simp)
    refine ⟨h.blocks, h.kept, h.counts.addPiece (fun i _ hne => ?_) fun hlt => ?_, fun i hi => ?_⟩
    · simp [hne]
    · rw [inc_count hx.1 (hnew hlt)]
      simp
    · have hle := h.own i hi
      by_cases hii : i = index
      · simp [hii, hnew (hii ▸ hi)]
      · simp [hii, hle]
  · have hcounted : ∀ i, t.counted (.completePiece index) i = false := fun i => by
      by_cases hindex : index < t.torrent.bitfieldMan.blocks
      · have hall : t.torrent.allDownloadFinished = true := by simpa [hindex] using hcounts
        simp [counted, hall]
      · simp [counted, hindex]
    have htorrent : t.torrent.step (.completePiece index) = t.torrent := by
      change t.torrent.completePiece index = _
      unfold Torrent.completePiece
      split
      · rfl
      next hindex => exact if_pos (by simpa [not_not.mp hindex] using hcounts)
    unfold step
    rw [htorrent]
    simp only [hcounted]
    exact h

theorem Tallied.setBitfield (h : t.Tallied) {bitfield : Bytes} (hx : t.Once (.setBitfield bitfield)) :
    (t.step (.setBitfield bitfield)).Tallied := by
  refine ⟨?_, h.kept, h.counts.mapIdx fun i hi => ?_, fun i hi => ?_⟩
  · exact (t.torrent.bitfieldMan.blocks_setBitfield bitfield).trans h.blocks
  · change (if Bitfield.test bitfield i = true then _ else _) =
      peersWith t.torrent.commands i + (t.own i + (Bitfield.test bitfield i).toNat)
    cases htest : Bitfield.test bitfield i
    · rfl
    · rw [if_pos rfl, inc_count hx.1 (hx.2 i hi htest)]
      rfl
  · change t.own i + (Bitfield.test bitfield i).toNat ≤ 1
    cases htest : Bitfield.test bitfield i
    · exact h.own i hi
    · have hnew : t.own i = 0 := hx.2 i hi htest
      rw [hnew]
      decide

theorem Tallied.step (h : t.Tallied) {e : Torrent.Event} (hx : t.Once e) : (t.step e).Tallied := by
  cases e with
  | connect fast => exact h.connect fast
  | receive j m => exact h.receive hx.1 j m
  | finish j => exact h.finish j
  | completePiece index => exact h.completePiece hx
  | setBitfield bitfield => exact h.setBitfield hx

/-- A torrent without connections, of which nothing is complete yet. -/
def new (pieceLength totalLength : Nat) : Tally where
  torrent := .new pieceLength totalLength

theorem tallied_new (pieceLength totalLength : Nat) : (new pieceLength totalLength).Tallied := by
  refine ⟨rfl, nofun, ⟨List.length_replicate, fun i hi => ?_⟩, fun _ _ => Nat.zero_le _⟩
  exact List.getElem?_replicate_of_lt hi

/-- In every run in which the storage counts no piece twice and the connections do not run out of
counts, the counts say what the swarm has. -/
theorem sums_of_once (pieceLength totalLength : Nat) (es : List Torrent.Event)
    (h : Along step Once (new pieceLength totalLength) es) :
    Visits step Sums (new pieceLength totalLength) es :=
  visits_of_along (fun _ _ ht hx => ht.step hx) (fun _ ht => ht.sums) (tallied_new ..) h

/-- Two peers, one of which says twice what it has, and a piece of the storage. -/
theorem sums_of_once_two : Visits step Sums (new 1 8) [.connect true, .connect false,
    .receive 0 .btHaveAll, .receive 1 (.btHave 3), .receive 1 (.btHave 3), .completePiece 3,
    .receive 1 (.btBitfield [0x81]), .finish 0] := by
  exact sums_of_once 1 8 _ (by decide +kernel)

/-- The pieces of the control file are counted when it is loaded, and again when they are checked.
-/
theorem sums_recounted : ¬∀ pieceLength totalLength es,
    Visits step Sums (new pieceLength totalLength) es := by
  intro h
  have hcount := (h 1 8 [.setBitfield [0x80], .setBitfield [0x80]]).last.counts 0 (by decide)
  exact absurd hcount (by decide +kernel)

end Tally

end FluxCore.Swarm
