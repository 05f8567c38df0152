import FluxCore.Dht.Bucket
import FluxCore.Lib.Run

/-!
# The routing table

`DHTRoutingTable` keeps its buckets at the leaves of a binary tree. A tree node has the ends of its
range as they were when it was made.
-/

namespace FluxCore.Dht

inductive DHTBucketTreeNode where
  | leaf (minId maxId : ID) (bucket : DHTBucket)
  | inner (minId maxId : ID) (left right : DHTBucketTreeNode)
  deriving Repr

namespace DHTBucketTreeNode

/-- `DHTBucketTreeNode(bucket)`. -/
def ofBucket (bucket : DHTBucket) : DHTBucketTreeNode := leaf bucket.min bucket.max bucket

def minId : DHTBucketTreeNode → ID
  | leaf minId _ _ => minId
  | inner minId _ _ _ => minId

def maxId : DHTBucketTreeNode → ID
  | leaf _ maxId _ => maxId
  | inner _ maxId _ _ => maxId

def isInRange (t : DHTBucketTreeNode) (key : ID) : Bool :=
  !lexicographicalCompare key t.minId && !lexicographicalCompare t.maxId key

/-- `resetRelation`. -/
def ofChildren (left right : DHTBucketTreeNode) : DHTBucketTreeNode :=
  inner left.minId right.maxId left right

/-- `findBucketFor`: `dig` down to a leaf. -/
def findBucketFor (key : ID) : DHTBucketTreeNode → DHTBucket
  | leaf _ _ bucket => bucket
  | inner _ _ left right =>
    if left.isInRange key then findBucketFor key left else findBucketFor key right

/-- Puts `f bucket` in the place of the bucket that `findBucketFor` finds. -/
def modify (key : ID) (f : DHTBucket → DHTBucket) : DHTBucketTreeNode → DHTBucketTreeNode
  | leaf minId maxId bucket => leaf minId maxId (f bucket)
  | inner minId maxId left right =>
    if left.isInRange key then inner minId maxId (modify key f left) right
    else inner minId maxId left (modify key f right)

/-- The loop of `DHTRoutingTable::addNode` at a leaf: what comes in the leaf's place, the result,
and how often a bucket was split. It ends in `none` without fuel and when an assertion fails. -/
def addLoop (isBad : DHTNode → Bool) (node : DHTNode) (good : Bool) :
    Nat → DHTBucketTreeNode → Option (DHTBucketTreeNode × Bool × Nat)
  | 0, _ => none
  | _ + 1, inner .. => none
  | fuel + 1, leaf minId maxId bucket =>
    match bucket.addNode isBad node with
    | some bucket => some (leaf minId maxId bucket, true, 0)
    | none =>
      if bucket.splitAllowed then
        (bucket.split isBad).bind fun (rBucket, bucket) =>
          let left := ofBucket rBucket
          let right := ofBucket bucket
          let parent := ofChildren left right
          if left.isInRange node.id then
            (addLoop isBad node good fuel left).map fun (left, added, n) =>
              (inner parent.minId parent.maxId left right, added, n + 1)
          else
            (addLoop isBad node good fuel right).map fun (right, added, n) =>
              (inner parent.minId parent.maxId left right, added, n + 1)
      else some (leaf minId maxId (if good then bucket.cacheNode node else bucket), false, 0)

/-- The loop at the leaf for a node. -/
def addNode (isBad : DHTNode → Bool) (node : DHTNode) (good : Bool) (fuel : Nat) :
    DHTBucketTreeNode → Option (DHTBucketTreeNode × Bool × Nat)
  | leaf minId maxId bucket => addLoop isBad node good fuel (leaf minId maxId bucket)
  | inner minId maxId left right =>
    if left.isInRange node.id then
      (addNode isBad node good fuel left).map fun (left, added, n) =>
        (inner minId maxId left right, added, n)
    else
      (addNode isBad node good fuel right).map fun (right, added, n) =>
        (inner minId maxId left right, added, n)

/-- `enumerateBucket`. -/
def leaves : DHTBucketTreeNode → List DHTBucket
  | leaf _ _ bucket => [bucket]
  | inner _ _ left right => leaves left ++ leaves right

/-- All nodes of the tree. -/
def subtrees : DHTBucketTreeNode → List DHTBucketTreeNode
  | t@(leaf ..) => [t]
  | t@(inner _ _ left right) => t :: subtrees left ++ subtrees right

def isLeaf : DHTBucketTreeNode → Bool
  | leaf .. => true
  | inner .. => false

end DHTBucketTreeNode

structure DHTRoutingTable where
  localNode : DHTNode
  root : DHTBucketTreeNode
  numBucket : Nat
  deriving Repr

namespace DHTRoutingTable

def init (localNode : DHTNode) : DHTRoutingTable :=
  { localNode
    root := .ofBucket (.whole localNode.id)
    numBucket := 1 }

/-- `addNode`, where `fuel` bounds the turns of its loop. -/
def addNode (isBad : DHTNode → Bool) (node : DHTNode) (good : Bool) (fuel : Nat)
    (s : DHTRoutingTable) : Option (DHTRoutingTable × Bool) :=
  if s.localNode.id = node.id then some (s, false)
  else
    (s.root.addNode isBad node good fuel).map fun (root, added, n) =>
      ({ s with root, numBucket := s.numBucket + n }, added)

def dropNode (node : DHTNode) (s : DHTRoutingTable) : DHTRoutingTable :=
  { s with root := s.root.modify node.id (·.dropNode node) }

def moveBucketTail (node : DHTNode) (s : DHTRoutingTable) : DHTRoutingTable :=
  { s with root := s.root.modify node.id (·.moveToTail node) }

/-- Calls of the table, with the nodes that are bad at that time. -/
inductive Event where
  | addNode (isBad : DHTNode → Bool) (node : DHTNode)
  | addGoodNode (isBad : DHTNode → Bool) (node : DHTNode)
  | dropNode (node : DHTNode)
  | moveBucketTail (node : DHTNode)

/-- A bucket is split no more often than an id has bits. -/
def turns : Nat := 8 * DHT_ID_LENGTH

/-- The call returns: its loop ends and no assertion fails. -/
def Returns (s : DHTRoutingTable) : Event → Prop
  | .addNode isBad node => (s.addNode isBad node false turns).isSome
  | .addGoodNode isBad node => (s.addNode isBad node true turns).isSome
  | .dropNode _ => True
  | .moveBucketTail _ => True

def step (s : DHTRoutingTable) : Event → DHTRoutingTable
  | .addNode isBad node => ((s.addNode isBad node false turns).map (·.1)).getD s
  | .addGoodNode isBad node => ((s.addNode isBad node true turns).map (·.1)).getD s
  | .dropNode node => s.dropNode node
  | .moveBucketTail node => s.moveBucketTail node

end DHTRoutingTable

namespace DHTBucketTreeNode

variable {t : DHTBucketTreeNode} {localID : ID} {p k : Nat}

theorem isInRange_iff (t : DHTBucketTreeNode) (id : ID) :
    t.isInRange id = true ↔ t.minId.toNat ≤ id.toNat ∧ id.toNat ≤ t.maxId.toNat := by
  rw [isInRange, Bool.and_eq_true, Bool.not_eq_true', Bool.not_eq_true', ← Bool.not_eq_true,
    ← Bool.not_eq_true, lexicographicalCompare_iff, lexicographicalCompare_iff, not_lt, not_lt]

/-- The tree over the range of a prefix: a bucket, or, if the local id has the prefix, the trees
over the two halves. -/
inductive Spans (localID : ID) : Nat → Nat → DHTBucketTreeNode → Prop
  | leaf {p k bucket} : bucket.Covers localID p k → bucket.Kept →
    Spans localID p k (ofBucket bucket)
  | inner {p k minId maxId left right} : DHTBucket.PrefixRange p k minId maxId → p < 159 →
    localID.toNat / 2 ^ (160 - p) = k → Spans localID (p + 1) (2 * k) left →
    Spans localID (p + 1) (2 * k + 1) right → Spans localID p k (inner minId maxId left right)

namespace Spans

theorem range (h : Spans localID p k t) : DHTBucket.PrefixRange p k t.minId t.maxId := by
  cases h with
  | leaf hc => exact hc.range
  | inner hr => exact hr

theorem isInRange_iff (h : Spans localID p k t) (id : ID) :
    t.isInRange id = true ↔ id.toNat / 2 ^ (160 - p) = k := by
  rw [DHTBucketTreeNode.isInRange_iff, h.range.mem_iff]

/-- An id that is not in the left half is in the right one. -/
theorem right_of_not_left {left : DHTBucketTreeNode} {id : ID} (hp : p < 159)
    (hl : Spans localID (p + 1) (2 * k) left) (hid : id.toNat / 2 ^ (160 - p) = k)
    (hn : ¬left.isInRange id = true) : id.toNat / 2 ^ (160 - (p + 1)) = 2 * k + 1 := by
  rw [hl.isInRange_iff] at hn
  rw [show 160 - p = 160 - (p + 1) + 1 by omega, Nat.pow_succ, ← Nat.div_div_eq_div_mul] at hid
  omega

theorem covers_addNode {b b' : DHTBucket} {isBad : DHTNode → Bool} {node : DHTNode}
    (h : b.Covers localID p k) (ha : b.addNode isBad node = some b') :
    b'.Covers localID p k ∧ DHTBucketTreeNode.leaf b.min b.max b' = ofBucket b' := by
  obtain ⟨l, -, rfl, -⟩ := DHTBucket.addNode_eq ha
  exact ⟨⟨h.prefixLength, h.localID, h.range⟩, rfl⟩

/-- The loop ends after as many turns as there are bits behind the prefix. -/
theorem addLoop {b : DHTBucket} {isBad : DHTNode → Bool} {node : DHTNode} (good : Bool)
    (hcov : b.Covers localID p k) (hk : b.Kept) (hid : node.id.toNat / 2 ^ (160 - p) = k)
    (hne : node.id ≠ localID) {fuel : Nat} (hfuel : 160 - p ≤ fuel) :
    ∃ t added n, addLoop isBad node good fuel (ofBucket b) = some (t, added, n) ∧
      Spans localID p k t ∧ t.leaves.length = 1 + n := by
  induction fuel generalizing p k b with
  | zero =>
    have := hcov.range.le
    omega
  | succ fuel ih =>
    have hin : b.isInRange node.id = true := (hcov.isInRange_iff _).mpr hid
    have hne' : node.id ≠ b.localID := hcov.localID ▸ hne
    rw [ofBucket, DHTBucketTreeNode.addLoop]
    cases ha : b.addNode isBad node with
    | some b' =>
      obtain ⟨hcov', heq⟩ := covers_addNode hcov ha
      exact ⟨_, true, 0, rfl, heq ▸ leaf hcov' (hk.addNode hin hne' ha), rfl⟩
    | none =>
      dsimp only
      by_cases hs : b.splitAllowed = true
      · obtain ⟨r, b', hsplit, hr, hrk, hb', hbk⟩ := hk.split isBad hcov hs
        obtain ⟨hp, hlocal⟩ := hcov.splitAllowed_iff.mp hs
        have hl : Spans localID (p + 1) (2 * k) (ofBucket r) := leaf hr hrk
        have hrange : DHTBucket.PrefixRange p k r.min b'.max := hr.range.join hb'.range
        rw [if_pos hs, hsplit, Option.bind_some]
        dsimp only
        by_cases hleft : (ofBucket r).isInRange node.id = true
        · obtain ⟨t, added, n, hloop, ht, hn⟩ :=
            ih hr hrk ((hl.isInRange_iff _).mp hleft) (by omega)
          rw [if_pos hleft, hloop]
          refine ⟨_, added, n + 1, rfl, inner hrange hp hlocal ht (leaf hb' hbk), ?_⟩
          change (t.leaves ++ [b']).length = _
          rw [List.length_append, hn, List.length_singleton]
          omega
        · obtain ⟨t, added, n, hloop, ht, hn⟩ :=
            ih hb' hbk (right_of_not_left hp hl hid hleft) (by omega)
          rw [if_neg hleft, hloop]
          refine ⟨_, added, n + 1, rfl, inner hrange hp hlocal hl ht, ?_⟩
          change ([r] ++ t.leaves).length = _
          rw [List.length_append, hn, List.length_singleton]
          omega
      · rw [if_neg hs]
        refine ⟨_, false, 0, rfl, ?_, rfl⟩
        cases good with
        | false => exact leaf hcov hk
        | true =>
          have hcov' : (b.cacheNode node).Covers localID p k :=
            ⟨hcov.prefixLength, hcov.localID, hcov.range⟩
          exact leaf hcov' (hk.cacheNode hin hne' (Bool.eq_false_iff.mpr hs))

theorem addNode (isBad : DHTNode → Bool) {node : DHTNode} (good : Bool) (h : Spans localID p k t)
    (hid : node.id.toNat / 2 ^ (160 - p) = k) (hne : node.id ≠ localID) {fuel : Nat}
    (hfuel : 160 - p ≤ fuel) :
    ∃ t' added n, t.addNode isBad node good fuel = some (t', added, n) ∧
      Spans localID p k t' ∧ t'.leaves.length = t.leaves.length + n := by
  induction h with
  | leaf hcov hk => exact addLoop good hcov hk hid hne hfuel
  | @inner p k minId maxId l r hrange hp hlocal hl hr ihl ihr =>
    rw [DHTBucketTreeNode.addNode]
    by_cases hleft : l.isInRange node.id = true
    · obtain ⟨t, added, n, heq, ht, hn⟩ := ihl ((hl.isInRange_iff _).mp hleft) (by omega)
      rw [if_pos hleft, heq]
      refine ⟨_, added, n, rfl, inner hrange hp hlocal ht hr, ?_⟩
      simp only [leaves, List.length_append, hn]
      omega
    · obtain ⟨t, added, n, heq, ht, hn⟩ := ihr (right_of_not_left hp hl hid hleft) (by omega)
      rw [if_neg hleft, heq]
      refine ⟨_, added, n, rfl, inner hrange hp hlocal hl ht, ?_⟩
      simp only [leaves, List.length_append, hn]
      omega

/-- The bucket for an id has it in its range. -/
theorem findBucketFor (h : Spans localID p k t) {id : ID} (hid : id.toNat / 2 ^ (160 - p) = k) :
    t.findBucketFor id ∈ t.leaves ∧ (t.findBucketFor id).Kept ∧
      (t.findBucketFor id).isInRange id = true ∧ (t.findBucketFor id).localID = localID := by
  induction h with
  | leaf hcov hk =>
    exact ⟨List.mem_singleton_self _, hk, (hcov.isInRange_iff _).mpr hid, hcov.localID⟩
  | inner hrange hp hlocal hl hr ihl ihr =>
    rw [DHTBucketTreeNode.findBucketFor]
    split
    next hleft =>
      obtain ⟨hm, h⟩ := ihl ((hl.isInRange_iff _).mp hleft)
      exact ⟨List.mem_append_left _ hm, h⟩
    next hleft =>
      obtain ⟨hm, h⟩ := ihr (right_of_not_left hp hl hid hleft)
      exact ⟨List.mem_append_right _ hm, h⟩

/-- Changing the nodes of a bucket changes nothing else. -/
theorem modify {f : DHTBucket → DHTBucket} (h : Spans localID p k t) {id : ID}
    (hid : id.toNat / 2 ^ (160 - p) = k)
    (hf : ∀ b, ∃ nodes cachedNodes, f b = { b with nodes, cachedNodes })
    (hkept : (f (t.findBucketFor id)).Kept) :
    Spans localID p k (t.modify id f) ∧ (t.modify id f).leaves.length = t.leaves.length := by
  induction h with
  | @leaf p k b hcov hk =>
    obtain ⟨nodes, cachedNodes, heq⟩ := hf b
    refine ⟨?_, rfl⟩
    change Spans localID p k (DHTBucketTreeNode.leaf b.min b.max (f b))
    change (f b).Kept at hkept
    rw [heq] at hkept ⊢
    have hcov' : DHTBucket.Covers localID p k { b with nodes, cachedNodes } :=
      ⟨hcov.prefixLength, hcov.localID, hcov.range⟩
    exact leaf hcov' hkept
  | @inner p k minId maxId l r hrange hp hlocal hl hr ihl ihr =>
    rw [DHTBucketTreeNode.findBucketFor] at hkept
    rw [DHTBucketTreeNode.modify]
    split
    next hleft =>
      rw [if_pos hleft] at hkept
      obtain ⟨ht, hn⟩ := ihl ((hl.isInRange_iff _).mp hleft) hkept
      refine ⟨inner hrange hp hlocal ht hr, ?_⟩
      simp only [leaves, List.length_append, hn]
    next hleft =>
      rw [if_neg hleft] at hkept
      obtain ⟨ht, hn⟩ := ihr (right_of_not_left hp hl hid hleft) hkept
      refine ⟨inner hrange hp hlocal hl ht, ?_⟩
      simp only [leaves, List.length_append, hn]

end Spans

theorem mem_leaves_modify (t : DHTBucketTreeNode) (id : ID) (f : DHTBucket → DHTBucket) :
    f (t.findBucketFor id) ∈ (t.modify id f).leaves := by
  induction t with
  | leaf minId maxId b => exact List.mem_singleton_self _
  | inner minId maxId l r ihl ihr =>
    rw [findBucketFor, modify]
    split
    · exact List.mem_append_left _ ihl
    · exact List.mem_append_right _ ihr

end DHTBucketTreeNode

end FluxCore.Dht
