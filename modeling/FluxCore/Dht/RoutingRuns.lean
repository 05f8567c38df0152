import FluxCore.Dht.RoutingTable

/-!
# Runs of the routing table

What holds of the table in every state (`Sound`) follows from the shape of its tree (`Spans`). Every
call keeps that shape but one: a node is dropped and the node that takes its place from the
replacement cache is in the bucket already, since it was added again after it was cached, or was
cached twice.
-/

namespace FluxCore.Dht

namespace DHTBucket

/-- The ranges of the buckets follow one upon another from `lo` to below `hi`. -/
inductive Consecutive : Nat → List DHTBucket → Nat → Prop
  | nil {lo} : Consecutive lo [] lo
  | cons {b bs hi} : b.min.toNat ≤ b.max.toNat → Consecutive (b.max.toNat + 1) bs hi →
    Consecutive b.min.toNat (b :: bs) hi

theorem Consecutive.append {lo mid hi : Nat} {bs bs' : List DHTBucket}
    (h : Consecutive lo bs mid) (h' : Consecutive mid bs' hi) : Consecutive lo (bs ++ bs') hi := by
  induction h with
  | nil => exact h'
  | cons hle _ ih => exact .cons hle (ih h')

theorem Consecutive.not_isInRange {lo hi : Nat} {bs : List DHTBucket} (h : Consecutive lo bs hi)
    {id : ID} (hid : id.toNat < lo) : ∀ b ∈ bs, ¬b.isInRange id = true := by
  induction h with
  | nil => exact fun b hb => absurd hb (List.not_mem_nil)
  | @cons b bs hi hle h ih =>
    intro b' hb' hin
    rcases List.mem_cons.mp hb' with rfl | hb'
    · have := ((isInRange_iff ..).mp hin).1
      omega
    · exact ih (by omega) b' hb' hin

/-- Each id between the ends is in the range of one bucket. -/
theorem Consecutive.exists_unique {lo hi : Nat} {bs : List DHTBucket} (h : Consecutive lo bs hi)
    {id : ID} (hlo : lo ≤ id.toNat) (hhi : id.toNat < hi) :
    (bs.filter (·.isInRange id)).length = 1 := by
  induction h with
  | nil => omega
  | @cons b bs hi hle h ih =>
    by_cases hin : b.isInRange id = true
    · have hlt := ((isInRange_iff ..).mp hin).2
      have hnone := List.filter_eq_nil_iff.mpr (h.not_isInRange (Nat.lt_succ_of_le hlt))
      rw [List.filter_cons_of_pos (by exact hin), hnone, List.length_singleton]
    · rw [List.filter_cons_of_neg (by exact hin)]
      refine ih ?_ hhi
      rw [isInRange_iff] at hin
      omega

end DHTBucket

namespace DHTBucketTreeNode

variable {t : DHTBucketTreeNode} {localID : ID} {p k : Nat}

namespace Spans

theorem consecutive (h : Spans localID p k t) :
    DHTBucket.Consecutive (2 ^ (160 - p) * k) t.leaves (2 ^ (160 - p) * (k + 1)) := by
  induction h with
  | @leaf p k b hcov hk =>
    have hpos : 0 < 2 ^ (160 - p) := by positivity
    have hmin := hcov.range.min_eq
    have hmax := hcov.range.max_eq
    have hend : b.max.toNat + 1 = 2 ^ (160 - p) * (k + 1) := by
      rw [hmax, Nat.mul_add, Nat.mul_one]
      omega
    rw [← hmin, ← hend]
    exact .cons (by omega) .nil
  | @inner p k minId maxId l r hrange hp hlocal hl hr ihl ihr =>
    have hlen : 160 - p = 160 - (p + 1) + 1 := by omega
    have hlo : 2 ^ (160 - p) * k = 2 ^ (160 - (p + 1)) * (2 * k) := by
      rw [hlen, Nat.pow_succ, Nat.mul_assoc]
    have hhi : 2 ^ (160 - p) * (k + 1) = 2 ^ (160 - (p + 1)) * (2 * k + 1 + 1) := by
      rw [hlen, Nat.pow_succ, Nat.mul_assoc]
      rfl
    rw [hlo, hhi]
    exact ihl.append ihr

theorem leaf_of_mem (h : Spans localID p k t) :
    ∀ b ∈ t.leaves, b.Kept ∧ ∃ p k, b.Covers localID p k := by
  induction h with
  | leaf hcov hk =>
    intro b hb
    obtain rfl := List.mem_singleton.mp hb
    exact ⟨hk, _, _, hcov⟩
  | inner _ _ _ _ _ ihl ihr =>
    intro b hb
    rcases List.mem_append.mp hb with hb | hb
    exacts [ihl b hb, ihr b hb]

/-- A node of the tree whose range does not have the local id is a leaf. -/
theorem isLeaf_of_mem (h : Spans localID p k t) :
    ∀ t' ∈ t.subtrees, t'.isInRange localID = false → t'.isLeaf = true := by
  induction h with
  | leaf hcov hk =>
    intro t' ht' _
    obtain rfl := List.mem_singleton.mp ht'
    rfl
  | @inner p k minId maxId l r hrange hp hlocal hl hr ihl ihr =>
    intro t' ht' hout
    rw [subtrees, List.cons_append, List.mem_cons, List.mem_append] at ht'
    rcases ht' with rfl | ht' | ht'
    · have hin := (inner hrange hp hlocal hl hr).isInRange_iff localID |>.mpr hlocal
      rw [hout] at hin
      cases hin
    · exact ihl t' ht' hout
    · exact ihr t' ht' hout

end Spans

end DHTBucketTreeNode

namespace DHTRoutingTable

variable {s : DHTRoutingTable}

/-- The leaves cut the ids into consecutive prefix ranges; the nodes of a bucket are of its range,
distinct, no more than `K` and not the local one; `numBucket` is the number of leaves; and what is
not on the way to the local id is a leaf. -/
structure Sound (s : DHTRoutingTable) : Prop where
  consecutive : DHTBucket.Consecutive 0 s.root.leaves (2 ^ 160)
  one : ∀ id, (s.root.leaves.filter (·.isInRange id)).length = 1
  prefixes : ∀ b ∈ s.root.leaves, ∃ k, DHTBucket.PrefixRange b.prefixLength k b.min b.max
  inRange : ∀ b ∈ s.root.leaves, ∀ n ∈ b.nodes ++ b.cachedNodes, b.isInRange n.id = true
  length_le : ∀ b ∈ s.root.leaves, b.nodes.length ≤ DHTBucket.K
  distinct : ∀ b ∈ s.root.leaves, (b.nodes.map (·.id)).Nodup
  ne_local : ∀ b ∈ s.root.leaves, ∀ n ∈ b.nodes ++ b.cachedNodes, n.id ≠ s.localNode.id
  numBucket : s.numBucket = s.root.leaves.length
  offPath : ∀ t ∈ s.root.subtrees, t.isInRange s.localNode.id = false → t.isLeaf = true

/-- The invariant behind `Sound`. -/
structure Inv (s : DHTRoutingTable) : Prop where
  spans : s.root.Spans s.localNode.id 0 0
  numBucket : s.numBucket = s.root.leaves.length

theorem Inv.sound (h : Inv s) : Sound s := by
  have hcons : DHTBucket.Consecutive 0 s.root.leaves (2 ^ 160) := h.spans.consecutive
  refine ⟨hcons, fun id => hcons.exists_unique (Nat.zero_le _) id.isLt, fun b hb => ?_,
    fun b hb => (h.spans.leaf_of_mem b hb).1.inRange,
    fun b hb => (h.spans.leaf_of_mem b hb).1.length_le,
    fun b hb => (h.spans.leaf_of_mem b hb).1.distinct, fun b hb => ?_, h.numBucket,
    h.spans.isLeaf_of_mem⟩
  · obtain ⟨-, p, k, hcov⟩ := h.spans.leaf_of_mem b hb
    exact ⟨k, hcov.prefixLength ▸ hcov.range⟩
  · obtain ⟨hk, p, k, hcov⟩ := h.spans.leaf_of_mem b hb
    exact hcov.localID ▸ hk.ne_local

theorem inv_init (localNode : DHTNode) : Inv (init localNode) := by
  refine ⟨.leaf ⟨rfl, rfl, by decide, rfl, rfl⟩ ⟨?_, ?_, ?_, ?_, ?_⟩, rfl⟩
  · exact fun n hn => absurd hn List.not_mem_nil
  · exact fun n hn => absurd hn List.not_mem_nil
  · exact Nat.zero_le _
  · exact List.nodup_nil
  · exact fun _ => rfl

theorem id_div (id : ID) : id.toNat / 2 ^ (160 - 0) = 0 := Nat.div_eq_of_lt id.isLt

/-- **`addNode` returns**, and keeps the table in shape. -/
theorem Inv.addNode (h : Inv s) (isBad : DHTNode → Bool) (node : DHTNode) (good : Bool) :
    ∃ s' added, s.addNode isBad node good turns = some (s', added) ∧ Inv s' := by
  rw [DHTRoutingTable.addNode]
  split
  next => exact ⟨s, false, rfl, h⟩
  next hne =>
    obtain ⟨t, added, n, heq, ht, hn⟩ := h.spans.addNode isBad good (id_div node.id) (Ne.symm hne)
      (show 160 - 0 ≤ turns from Nat.le_refl _)
    refine ⟨{ s with root := t, numBucket := s.numBucket + n }, added, by rw [heq]; rfl, ht, ?_⟩
    change s.numBucket + n = _
    rw [hn, h.numBucket]

theorem returns (h : Inv s) (e : Event) : Returns s e := by
  cases e with
  | addNode isBad node =>
    obtain ⟨s', added, heq, -⟩ := h.addNode isBad node false
    rw [Returns, heq]
    rfl
  | addGoodNode isBad node =>
    obtain ⟨s', added, heq, -⟩ := h.addNode isBad node true
    rw [Returns, heq]
    rfl
  | dropNode node => trivial
  | moveBucketTail node => trivial

/-- A node that is dropped is not replaced by one that is in the bucket. -/
def Fresh (s : DHTRoutingTable) : Event → Prop
  | .dropNode node => (s.root.findBucketFor node.id).Fresh node
  | _ => True

theorem dropNode_eq (node : DHTNode) (b : DHTBucket) :
    ∃ nodes cachedNodes, b.dropNode node = { b with nodes, cachedNodes } := by
  rw [DHTBucket.dropNode]
  split
  · exact ⟨_, _, rfl⟩
  · split
    · exact ⟨_, _, rfl⟩
    · exact ⟨_, _, rfl⟩

theorem moveToTail_eq (node : DHTNode) (b : DHTBucket) :
    ∃ nodes cachedNodes, b.moveToTail node = { b with nodes, cachedNodes } := by
  rw [DHTBucket.moveToTail]
  split
  · exact ⟨_, _, rfl⟩
  · exact ⟨_, _, rfl⟩

theorem Inv.step (h : Inv s) (e : Event) (hf : Fresh s e) : Inv (step s e) := by
  cases e with
  | addNode isBad node =>
    obtain ⟨s', added, heq, hs'⟩ := h.addNode isBad node false
    rw [DHTRoutingTable.step, heq]
    exact hs'
  | addGoodNode isBad node =>
    obtain ⟨s', added, heq, hs'⟩ := h.addNode isBad node true
    rw [DHTRoutingTable.step, heq]
    exact hs'
  | dropNode node =>
    obtain ⟨-, hk, -⟩ := h.spans.findBucketFor (id_div node.id)
    obtain ⟨ht, hn⟩ := h.spans.modify (id_div node.id) (dropNode_eq node) (hk.dropNode hf)
    exact ⟨ht, h.numBucket.trans hn.symm⟩
  | moveBucketTail node =>
    obtain ⟨-, hk, -⟩ := h.spans.findBucketFor (id_div node.id)
    obtain ⟨ht, hn⟩ := h.spans.modify (id_div node.id) (moveToTail_eq node) hk.moveToTail
    exact ⟨ht, h.numBucket.trans hn.symm⟩

/-- A node that is in the bucket and takes the place of one that is dropped is there twice. -/
theorem not_sound_step (h : Inv s) (e : Event) (hf : ¬Fresh s e) : ¬Sound (DHTRoutingTable.step s e) := by
  cases e with
  | addNode isBad node => exact absurd trivial hf
  | addGoodNode isBad node => exact absurd trivial hf
  | dropNode node =>
    obtain ⟨-, hk, -⟩ := h.spans.findBucketFor (id_div node.id)
    intro hs
    exact hf ((DHTBucket.distinct_dropNode_iff hk).mp
      (hs.distinct _ (DHTBucketTreeNode.mem_leaves_modify ..)))
  | moveBucketTail node => exact absurd trivial hf

/-- **The table is sound in every state of a run, and every call returns, if and only if no node
that is dropped is replaced by one that is in the bucket.** -/
theorem sound_iff (localNode : DHTNode) (es : List Event) :
    (Visits DHTRoutingTable.step Sound (init localNode) es ∧
      Along DHTRoutingTable.step Returns (init localNode) es) ↔
    Along DHTRoutingTable.step Fresh (init localNode) es := by
  have hiff : Visits DHTRoutingTable.step Sound (init localNode) es ↔
      Along DHTRoutingTable.step Fresh (init localNode) es :=
    visits_iff_along (P := fun _ _ => True) (fun _ e hs _ hf => Inv.step hs e hf)
      (fun _ hs => hs.sound) (fun _ e hs _ hf => not_sound_step hs e hf) (inv_init localNode)
      (Along.of_forall fun _ _ => trivial)
  refine ⟨fun h => hiff.mp h.1, fun h => ⟨hiff.mpr h, ?_⟩⟩
  exact along_of_along (fun s e hs hf => Inv.step hs e hf) (fun s e hs _ => returns hs e)
    (inv_init localNode) h

/-- A node that is cached twice, since its bucket is full each time it is seen, takes the place of
two nodes. -/
theorem cached_twice_counterexample :
    let node (n : Nat) : DHTNode :=
      { ipaddr := "10.0.0.1", port := .ofNat n, id := .ofNat 160 (2 ^ 159 + n) }
    let isBad : DHTNode → Bool := fun _ => false
    let es : List Event := (List.range 8).map (fun n => .addGoodNode isBad (node n)) ++
      [.addGoodNode isBad (node 8), .addGoodNode isBad (node 8), .dropNode (node 0),
        .dropNode (node 1)]
    ¬Visits DHTRoutingTable.step Sound (init { ipaddr := "10.0.0.2", port := 1, id := 0 }) es := by
  intro node isBad es h
  have hd := h.last.distinct
  revert hd
  decide +kernel

end DHTRoutingTable

end FluxCore.Dht
