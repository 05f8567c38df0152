import FluxCore.Dht.Node

/-!
# Buckets of the routing table

A `DHTBucket` has the nodes of one range of ids, the least recently seen in front, and a
replacement cache. A range is all the ids with one prefix (`InPrefix`); splitting a bucket flips
the bit behind the prefix in one of its ends.

Whether a node is bad changes all the time: `isBad` is how the nodes are when an operation begins.
-/

namespace FluxCore.Dht

structure DHTBucket where
  prefixLength : Nat
  max : ID
  min : ID
  localID : ID
  nodes : List DHTNode := []
  cachedNodes : List DHTNode := []
  deriving DecidableEq, Repr

namespace DHTBucket

def CACHE_SIZE : Nat := 2

/-- The bucket of all ids. -/
def whole (localID : ID) : DHTBucket :=
  { prefixLength := 0, max := BitVec.allOnes 160, min := 0, localID }

def isInRange (b : DHTBucket) (nodeID : ID) : Bool :=
  !lexicographicalCompare nodeID b.min && !lexicographicalCompare b.max nodeID

/-- `find_if(.., derefEqual(node)) != end()`. -/
def contains (nodes : List DHTNode) (id : ID) : Bool := nodes.any (·.id = id)

/-- `find_if` and `erase`. -/
def erase (nodes : List DHTNode) (id : ID) : List DHTNode := nodes.eraseP (·.id = id)

/-- `addNode`; `none` stands for `false`. -/
def addNode (isBad : DHTNode → Bool) (node : DHTNode) (b : DHTBucket) : Option DHTBucket :=
  if contains b.nodes node.id then some { b with nodes := erase b.nodes node.id ++ [node] }
  else if b.nodes.length < K then some { b with nodes := b.nodes ++ [node] }
  else
    match b.nodes with
    | [] => none
    | front :: rest => if isBad front then some { b with nodes := rest ++ [node] } else none

def cacheNode (node : DHTNode) (b : DHTBucket) : DHTBucket :=
  { b with cachedNodes := (node :: b.cachedNodes).take CACHE_SIZE }

def dropNode (node : DHTNode) (b : DHTBucket) : DHTBucket :=
  match b.cachedNodes with
  | [] => b
  | front :: rest =>
    if contains b.nodes node.id then
      { b with nodes := erase b.nodes node.id ++ [front], cachedNodes := rest }
    else b

def moveToTail (node : DHTNode) (b : DHTBucket) : DHTBucket :=
  if contains b.nodes node.id then { b with nodes := erase b.nodes node.id ++ [node] } else b

def splitAllowed (b : DHTBucket) : Bool :=
  b.prefixLength < DHT_ID_LENGTH * 8 - 1 && b.isInRange b.localID

/-- The loop of `split`: `rBucket` takes the nodes of its range, the others stay. It ends in `none`
when the assertion fails. -/
def distribute (isBad : DHTNode → Bool) :
    List DHTNode → DHTBucket → List DHTNode → Option (DHTBucket × List DHTNode)
  | [], rBucket, lNodes => some (rBucket, lNodes)
  | elem :: elems, rBucket, lNodes =>
    if rBucket.isInRange elem.id then
      (rBucket.addNode isBad elem).bind fun rBucket => distribute isBad elems rBucket lNodes
    else distribute isBad elems rBucket (lNodes ++ [elem])

/-- `split`: the new bucket and what the old one becomes. -/
def split (isBad : DHTNode → Bool) (b : DHTBucket) : Option (DHTBucket × DHTBucket) :=
  if b.splitAllowed then
    let rMax := flipBit b.max b.prefixLength
    let rMin := b.min
    let min := flipBit b.min b.prefixLength
    let prefixLength := b.prefixLength + 1
    let rBucket := { prefixLength, max := rMax, min := rMin, localID := b.localID }
    (distribute isBad b.nodes rBucket []).map fun (rBucket, lNodes) =>
      (rBucket, { b with prefixLength, min, nodes := lNodes })
  else none

variable {b b' : DHTBucket} {isBad : DHTNode → Bool} {node : DHTNode} {p k : Nat}

/-! ## Ranges -/

theorem isInRange_iff (b : DHTBucket) (id : ID) :
    b.isInRange id = true ↔ b.min.toNat ≤ id.toNat ∧ id.toNat ≤ b.max.toNat := by
  rw [isInRange, Bool.and_eq_true, Bool.not_eq_true', Bool.not_eq_true', ← Bool.not_eq_true,
    ← Bool.not_eq_true, lexicographicalCompare_iff, lexicographicalCompare_iff, not_lt, not_lt]

/-- From `min` to `max` are the ids with a prefix of `p` bits, which as a number is `k`. -/
structure PrefixRange (p k : Nat) (min max : ID) : Prop where
  le : p ≤ 159
  min_eq : min.toNat = 2 ^ (160 - p) * k
  max_eq : max.toNat = 2 ^ (160 - p) * k + (2 ^ (160 - p) - 1)

theorem PrefixRange.mem_iff {min max : ID} (h : PrefixRange p k min max) (id : ID) :
    (min.toNat ≤ id.toNat ∧ id.toNat ≤ max.toNat) ↔ id.toNat / 2 ^ (160 - p) = k := by
  have hpos : 0 < 2 ^ (160 - p) := by positivity
  rw [h.min_eq, h.max_eq, Nat.div_eq_iff hpos, Nat.mul_comm]
  omega

/-- The two halves of a range. -/
theorem PrefixRange.split {min max : ID} (h : PrefixRange p k min max) (hp : p < 159) :
    PrefixRange (p + 1) (2 * k) min (flipBit max p) ∧
      PrefixRange (p + 1) (2 * k + 1) (flipBit min p) max := by
  obtain ⟨q, hq, rfl⟩ : ∃ q < 160, p = 159 - q := ⟨159 - p, by omega, by omega⟩
  have hpos : 0 < 2 ^ q := by positivity
  have hlen : 160 - (159 - q) = q + 1 := by omega
  have hlen' : 160 - (159 - q + 1) = q := by omega
  have hpow : 2 ^ (q + 1) = 2 ^ q + 2 ^ q := by rw [Nat.pow_succ]; omega
  have hmin := h.min_eq
  have hmax := h.max_eq
  rw [hlen] at hmin hmax
  have hmin' : (flipBit min (159 - q)).toNat = 2 ^ (q + 1) * k + 2 ^ q := by
    rw [toNat_flipBit _ hq, hmin]
    exact xor_two_pow (c := 0) hpos
  have hmax' : (flipBit max (159 - q)).toNat = 2 ^ (q + 1) * k + (2 ^ q - 1) := by
    have hx := xor_two_pow (q := q) (k := k) (c := 2 ^ q - 1) (by omega)
    rw [toNat_flipBit _ hq, hmax, show 2 ^ (q + 1) - 1 = 2 ^ q + (2 ^ q - 1) by omega, ← hx,
      Nat.xor_assoc, Nat.xor_self, Nat.xor_zero]
  have hk : 2 ^ q * (2 * k) = 2 ^ (q + 1) * k := by rw [Nat.pow_succ, Nat.mul_assoc]
  have hk' : 2 ^ q * (2 * k + 1) = 2 ^ (q + 1) * k + 2 ^ q := by rw [Nat.mul_add, hk, Nat.mul_one]
  refine ⟨⟨by omega, ?_, ?_⟩, ⟨by omega, ?_, ?_⟩⟩
  · rw [hlen', hk, hmin]
  · rw [hlen', hk, hmax']
  · rw [hlen', hk', hmin']
  · rw [hlen', hk', hmax]
    omega

theorem PrefixRange.join {min max min' max' : ID} (h : PrefixRange (p + 1) (2 * k) min max)
    (h' : PrefixRange (p + 1) (2 * k + 1) min' max') : PrefixRange p k min max' := by
  have hle := h.le
  have hlen : 160 - p = 160 - (p + 1) + 1 := by omega
  have hpos : 0 < 2 ^ (160 - (p + 1)) := by positivity
  have hmax := h'.max_eq
  refine ⟨by omega, ?_, ?_⟩
  · rw [h.min_eq, hlen, Nat.pow_succ, Nat.mul_assoc]
  · rw [hmax, hlen, Nat.pow_succ, Nat.mul_add, Nat.mul_assoc]
    omega

/-- An id of a range is in one of the halves. -/
theorem PrefixRange.half {min max : ID} (h : PrefixRange p k min max) (hp : p < 159) {id : ID}
    (hid : min.toNat ≤ id.toNat ∧ id.toNat ≤ max.toNat) :
    id.toNat / 2 ^ (160 - (p + 1)) = 2 * k ∨ id.toNat / 2 ^ (160 - (p + 1)) = 2 * k + 1 := by
  have hk := (h.mem_iff id).mp hid
  rw [show 160 - p = 160 - (p + 1) + 1 by omega, Nat.pow_succ, ← Nat.div_div_eq_div_mul] at hk
  omega

/-- The bucket of a prefix. -/
structure Covers (localID : ID) (p k : Nat) (b : DHTBucket) : Prop where
  prefixLength : b.prefixLength = p
  localID : b.localID = localID
  range : PrefixRange p k b.min b.max

theorem Covers.isInRange_iff {localID : ID} (h : Covers localID p k b) (id : ID) :
    b.isInRange id = true ↔ id.toNat / 2 ^ (160 - p) = k := by
  rw [DHTBucket.isInRange_iff, h.range.mem_iff]

theorem Covers.splitAllowed_iff {localID : ID} (h : Covers localID p k b) :
    b.splitAllowed = true ↔ p < 159 ∧ localID.toNat / 2 ^ (160 - p) = k := by
  rw [splitAllowed, Bool.and_eq_true, h.isInRange_iff, h.prefixLength, h.localID,
    decide_eq_true_iff]
  rfl

/-! ## Nodes -/

theorem contains_iff {nodes : List DHTNode} {id : ID} :
    contains nodes id = true ↔ id ∈ nodes.map (·.id) := by
  rw [contains, List.any_eq_true, List.mem_map]
  exact exists_congr fun n => and_congr_right fun _ => decide_eq_true_iff

theorem erase_sublist (nodes : List DHTNode) (id : ID) : (erase nodes id).Sublist nodes :=
  List.eraseP_sublist ..

theorem length_erase_lt {nodes : List DHTNode} {id : ID} (h : contains nodes id = true) :
    (erase nodes id).length < nodes.length := by
  obtain ⟨n, hn, hid⟩ := List.any_eq_true.mp h
  have := List.length_pos_of_mem hn
  rw [erase, List.length_eraseP_of_mem hn hid]
  omega

/-- Where ids are distinct, erasing takes away just one. -/
theorem mem_erase_iff {nodes : List DHTNode} (h : (nodes.map (·.id)).Nodup) {id x : ID} :
    x ∈ (erase nodes id).map (·.id) ↔ x ≠ id ∧ x ∈ nodes.map (·.id) := by
  induction nodes with
  | nil => simp [erase]
  | cons n nodes ih =>
    rw [List.map_cons, List.nodup_cons] at h
    rw [erase]
    by_cases hn : n.id = id
    · rw [List.eraseP_cons_of_pos (by simpa using hn), List.map_cons, List.mem_cons, hn]
      refine ⟨fun hx => ⟨?_, .inr hx⟩, fun hx => hx.2.resolve_left hx.1⟩
      rintro rfl
      exact h.1 (hn ▸ hx)
    · rw [List.eraseP_cons_of_neg (by simpa using hn), List.map_cons, List.mem_cons,
        List.map_cons, List.mem_cons, ← erase, ih h.2]
      constructor
      · rintro (rfl | ⟨hx, hm⟩)
        exacts [⟨hn, .inl rfl⟩, ⟨hx, .inr hm⟩]
      · rintro ⟨hx, rfl | hm⟩
        exacts [.inl rfl, .inr ⟨hx, hm⟩]

/-- What a bucket keeps: its nodes are of its range, not the local one, no more than `K` and
distinct; and a bucket that may yet be split has cached nothing. -/
structure Kept (b : DHTBucket) : Prop where
  inRange : ∀ n ∈ b.nodes ++ b.cachedNodes, b.isInRange n.id = true
  ne_local : ∀ n ∈ b.nodes ++ b.cachedNodes, n.id ≠ b.localID
  length_le : b.nodes.length ≤ K
  distinct : (b.nodes.map (·.id)).Nodup
  cached : b.splitAllowed = true → b.cachedNodes = []

/-- A node goes behind some of those that are there. -/
theorem Kept.push (h : b.Kept) {l c : List DHTNode} (hl : l.Sublist b.nodes)
    (hc : c.Sublist b.cachedNodes) (hin : b.isInRange node.id = true) (hne : node.id ≠ b.localID)
    (hlen : l.length < K) (hnew : node.id ∉ l.map (·.id)) :
    Kept { b with nodes := l ++ [node], cachedNodes := c } := by
  have hmem : ∀ n ∈ l ++ [node] ++ c, n = node ∨ n ∈ b.nodes ++ b.cachedNodes := by
    intro n hn
    simp only [List.mem_append, List.mem_singleton] at hn ⊢
    rcases hn with (hn | hn) | hn
    exacts [.inr (.inl (hl.subset hn)), .inl hn, .inr (.inr (hc.subset hn))]
  refine ⟨fun n hn => ?_, fun n hn => ?_, ?_, ?_, fun hs => ?_⟩
  · rcases hmem n hn with rfl | hn
    exacts [hin, h.inRange n hn]
  · rcases hmem n hn with rfl | hn
    exacts [hne, h.ne_local n hn]
  · rw [List.length_append]
    exact hlen
  · have hd : (l.map (·.id)).Nodup := h.distinct.sublist (hl.map _)
    simpa [List.nodup_append, hd] using hnew
  · have hnil := h.cached hs
    rw [hnil] at hc
    exact List.sublist_nil.mp hc

/-- A node that is added goes behind some of those that are there. -/
theorem addNode_eq (h : b.addNode isBad node = some b') :
    ∃ l, l.Sublist b.nodes ∧ b' = { b with nodes := l ++ [node] } ∧
      (b.nodes.length ≤ K → l.length < K) ∧
      ((b.nodes.map (·.id)).Nodup → node.id ∉ l.map (·.id)) := by
  rw [addNode] at h
  split at h
  next hc =>
    refine ⟨erase b.nodes node.id, erase_sublist .., (Option.some.inj h).symm,
      fun hle => (length_erase_lt hc).trans_le hle, fun hd hm => ?_⟩
    exact ((mem_erase_iff hd).mp hm).1 rfl
  next hc =>
    have hnew : node.id ∉ b.nodes.map (·.id) := fun hm => hc (contains_iff.mpr hm)
    split at h
    next hlt => exact ⟨b.nodes, .refl _, (Option.some.inj h).symm, fun _ => hlt, fun _ => hnew⟩
    next hlt =>
      split at h
      next => cases h
      next front rest heq =>
        split at h
        next hbad =>
          rw [heq] at hnew ⊢
          refine ⟨rest, List.sublist_cons_self .., (Option.some.inj h).symm, fun hle => hle,
            fun _ hm => hnew (.tail _ hm)⟩
        next => cases h

theorem Kept.addNode (h : b.Kept) (hin : b.isInRange node.id = true) (hne : node.id ≠ b.localID)
    (ha : b.addNode isBad node = some b') : b'.Kept := by
  obtain ⟨l, hl, rfl, hlen, hnew⟩ := addNode_eq ha
  exact h.push hl (.refl _) hin hne (hlen h.length_le) (hnew h.distinct)

theorem Kept.moveToTail (h : b.Kept) : (b.moveToTail node).Kept := by
  rw [DHTBucket.moveToTail]
  split
  next hc =>
    obtain ⟨n, hn, hid⟩ := List.mem_map.mp (contains_iff.mp hc)
    have hmem : n ∈ b.nodes ++ b.cachedNodes := List.mem_append_left _ hn
    exact h.push (erase_sublist ..) (.refl _) (hid ▸ h.inRange n hmem) (hid ▸ h.ne_local n hmem)
      ((length_erase_lt hc).trans_le h.length_le)
      fun hm => ((mem_erase_iff h.distinct).mp hm).1 rfl
  next => exact h

theorem Kept.cacheNode (h : b.Kept) (hin : b.isInRange node.id = true) (hne : node.id ≠ b.localID)
    (hs : b.splitAllowed = false) : (b.cacheNode node).Kept := by
  have hmem : ∀ n ∈ b.nodes ++ (node :: b.cachedNodes).take CACHE_SIZE,
      n = node ∨ n ∈ b.nodes ++ b.cachedNodes := by
    intro n hn
    rcases List.mem_append.mp hn with hn | hn
    · exact .inr (List.mem_append_left _ hn)
    · rcases List.mem_cons.mp (List.mem_of_mem_take hn) with rfl | hn
      exacts [.inl rfl, .inr (List.mem_append_right _ hn)]
  refine ⟨fun n hn => ?_, fun n hn => ?_, h.length_le, h.distinct, fun hs' => ?_⟩
  · rcases hmem n hn with rfl | hn
    exacts [hin, h.inRange n hn]
  · rcases hmem n hn with rfl | hn
    exacts [hne, h.ne_local n hn]
  · exact absurd (hs.symm.trans hs') (by decide)

/-- The node that takes the place of one that is dropped is not in the bucket. -/
def Fresh (b : DHTBucket) (node : DHTNode) : Prop :=
  node.id ∈ b.nodes.map (·.id) →
    ∀ c ∈ b.cachedNodes.head?, c.id = node.id ∨ c.id ∉ b.nodes.map (·.id)

theorem distinct_dropNode_iff (h : b.Kept) :
    ((b.dropNode node).nodes.map (·.id)).Nodup ↔ b.Fresh node := by
  rw [dropNode, Fresh]
  cases hc : b.cachedNodes with
  | nil => simpa using h.distinct
  | cons c cs =>
    dsimp only
    by_cases hn : contains b.nodes node.id = true
    · have hd : ((erase b.nodes node.id).map (·.id)).Nodup :=
        h.distinct.sublist ((erase_sublist ..).map _)
      rw [if_pos hn]
      dsimp only
      rw [List.map_append, List.nodup_append]
      simp only [hd, List.map_cons, List.map_nil, List.nodup_cons, List.not_mem_nil,
        not_false_eq_true, List.nodup_nil, and_self, List.mem_singleton, forall_eq, true_and,
        List.head?_cons, Option.mem_some_iff, forall_eq']
      have hc : (∀ a ∈ (erase b.nodes node.id).map (·.id), a ≠ c.id) ↔
          c.id ∉ (erase b.nodes node.id).map (·.id) :=
        ⟨fun ha hm => ha _ hm rfl, fun hm a ha hac => hm (hac ▸ ha)⟩
      rw [hc, mem_erase_iff h.distinct, not_and, or_iff_not_imp_left]
      exact ⟨fun hf _ => hf, fun hf => hf (contains_iff.mp hn)⟩
    · rw [if_neg hn]
      exact iff_of_true h.distinct fun hm => absurd (contains_iff.mpr hm) hn

theorem Kept.dropNode (h : b.Kept) (hf : b.Fresh node) : (b.dropNode node).Kept := by
  have hd := (distinct_dropNode_iff h).mpr hf
  rw [DHTBucket.dropNode] at hd ⊢
  cases hc : b.cachedNodes with
  | nil => exact h
  | cons c cs =>
    have hmem : c ∈ b.nodes ++ b.cachedNodes := List.mem_append_right _ (hc ▸ List.mem_cons_self ..)
    simp only [hc] at hd ⊢
    split at hd
    next hn =>
      rw [if_pos hn]
      refine h.push (erase_sublist ..) (hc ▸ List.sublist_cons_self ..) (h.inRange c hmem)
        (h.ne_local c hmem) ((length_erase_lt hn).trans_le h.length_le) fun hm => ?_
      rw [List.map_append, List.nodup_append] at hd
      exact hd.2.2 _ hm _ (List.mem_singleton_self _) rfl
    next hn =>
      rw [if_neg hn]
      exact h

/-! ## Splitting -/

/-- While there is room and the ids are distinct, the new bucket takes the nodes of its range. -/
theorem distribute_eq (isBad : DHTNode → Bool) (elems : List DHTNode) (r : DHTBucket) (l : List DHTNode)
    (hd : ((r.nodes ++ elems).map (·.id)).Nodup) (hlen : r.nodes.length + elems.length ≤ K) :
    distribute isBad elems r l =
      some ({ r with nodes := r.nodes ++ elems.filter (r.isInRange ·.id) },
        l ++ elems.filter (!r.isInRange ·.id)) := by
  induction elems generalizing r l with
  | nil => simp [distribute]
  | cons n elems ih =>
    rw [List.length_cons] at hlen
    rw [distribute]
    by_cases hr : r.isInRange n.id = true
    · have hnew : ¬contains r.nodes n.id = true := fun hm => by
        rw [List.map_append, List.nodup_append] at hd
        exact hd.2.2 _ (contains_iff.mp hm) _ (List.mem_cons_self ..) rfl
      have hadd : r.addNode isBad n = some { r with nodes := r.nodes ++ [n] } := by
        rw [addNode, if_neg hnew, if_pos (by omega)]
      rw [if_pos hr, hadd, Option.bind_some, ih]
      · have hrange : ∀ id, isInRange { r with nodes := r.nodes ++ [n] } id = r.isInRange id :=
          fun _ => rfl
        simp only [hrange, List.append_assoc, List.singleton_append]
        rw [List.filter_cons_of_pos (by exact hr), List.filter_cons_of_neg (by simpa using hr)]
      · simpa using hd
      · simp only [List.length_append, List.length_singleton]
        omega
    · rw [if_neg hr, ih]
      · simp [hr]
      · exact hd.sublist ((List.Sublist.append_left (List.sublist_cons_self ..) _).map _)
      · omega

/-- **Splitting** does not fail, and gives the buckets of the two halves. -/
theorem Kept.split {localID : ID} (isBad : DHTNode → Bool) (h : b.Kept) (hcov : Covers localID p k b)
    (hs : b.splitAllowed = true) :
    ∃ r b', b.split isBad = some (r, b') ∧ Covers localID (p + 1) (2 * k) r ∧ r.Kept ∧
      Covers localID (p + 1) (2 * k + 1) b' ∧ b'.Kept := by
  have hp := (hcov.splitAllowed_iff.mp hs).1
  have hnil := h.cached hs
  obtain ⟨hlow, hhigh⟩ := hcov.range.split hp
  let r : DHTBucket :=
    { prefixLength := p + 1, max := flipBit b.max p, min := b.min, localID := b.localID }
  let b' : DHTBucket := { b with
    prefixLength := p + 1
    min := flipBit b.min p
    nodes := b.nodes.filter (!r.isInRange ·.id) }
  have hr : Covers localID (p + 1) (2 * k) r := ⟨rfl, hcov.localID, hlow⟩
  have hb' : Covers localID (p + 1) (2 * k + 1) b' := ⟨rfl, hcov.localID, hhigh⟩
  have hloop := distribute_eq isBad b.nodes r [] (by simpa [r] using h.distinct)
    (by simpa [r] using h.length_le)
  refine ⟨{ r with nodes := b.nodes.filter (r.isInRange ·.id) }, b', ?_, ⟨rfl, hcov.localID, hlow⟩,
    ⟨?_, ?_, ?_, ?_, fun _ => rfl⟩, hb', ⟨?_, ?_, ?_, ?_, fun _ => hnil⟩⟩
  · rw [DHTBucket.split, if_pos hs]
    simp only [hcov.prefixLength]
    rw [hloop]
    rfl
  · intro n hn
    rw [List.append_nil] at hn
    exact (List.mem_filter.mp hn).2
  · intro n hn
    rw [List.append_nil] at hn
    exact h.ne_local n (List.mem_append_left _ (List.mem_filter.mp hn).1)
  · exact (List.length_filter_le ..).trans h.length_le
  · exact h.distinct.sublist ((List.filter_sublist ..).map _)
  · intro n hn
    obtain ⟨hn, hnr⟩ : n ∈ b.nodes ∧ (!r.isInRange n.id) = true := by
      simpa [b', hnil] using hn
    have hin := (DHTBucket.isInRange_iff ..).mp (h.inRange n (List.mem_append_left _ hn))
    rcases hcov.range.half hp hin with hx | hx
    · exact absurd ((hr.isInRange_iff _).mpr hx) (by simpa using hnr)
    · exact (hb'.isInRange_iff _).mpr hx
  · intro n hn
    have hn : n ∈ b.nodes ∧ (!r.isInRange n.id) = true := by simpa [b', hnil] using hn
    exact h.ne_local n (List.mem_append_left _ hn.1)
  · exact (List.length_filter_le ..).trans h.length_le
  · exact h.distinct.sublist ((List.filter_sublist ..).map _)

end DHTBucket

end FluxCore.Dht
