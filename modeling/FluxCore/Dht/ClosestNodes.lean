import FluxCore.Dht.RoutingRuns
import Mathlib.Data.List.Nodup
import Mathlib.Data.List.Perm.Basic

/-!
# The nodes that are returned for a key

`findClosestKNodes` takes the good nodes of whole buckets: of the bucket for the key, of the tree
next to it, and of the buckets next to its ancestors, until there are `K`; the rest is cut off
behind the `K`-th. It is right about the number of nodes always, and about the distances if the tree
next to the bucket is asked in the order of the distances and the cut leaves out the farthest nodes
of the bucket that it goes through (`closest_iff`).
-/

namespace FluxCore.Dht

variable {isBad : DHTNode → Bool} {key : ID}

/-- The nodes of a bucket that are not bad. -/
def DHTBucket.goodNodes (isBad : DHTNode → Bool) (b : DHTBucket) : List DHTNode :=
  b.nodes.filter (!isBad ·)

/-- `DHTBucket::getGoodNodes(goodNodes)`. -/
def DHTBucket.getGoodNodes (isBad : DHTNode → Bool) (b : DHTBucket) (goodNodes : List DHTNode) :
    List DHTNode :=
  (goodNodes ++ b.nodes).filter (!isBad ·)

namespace DHTBucketTreeNode

/-- The parent of a node, which is its left or its right child. -/
structure Parent where
  minId : ID
  maxId : ID
  left : DHTBucketTreeNode
  right : DHTBucketTreeNode
  isLeft : Bool

def Parent.node (f : Parent) : DHTBucketTreeNode := inner f.minId f.maxId f.left f.right

def Parent.child (f : Parent) : DHTBucketTreeNode := if f.isLeft then f.left else f.right

/-- The other child. -/
def Parent.sibling (f : Parent) : DHTBucketTreeNode := if f.isLeft then f.right else f.left

/-- `getBucket`, which is null at an inner node. -/
def getBucket : DHTBucketTreeNode → Option DHTBucket
  | leaf _ _ bucket => some bucket
  | inner .. => none

/-- `findTreeNodeFor`, with the ancestors of the node that is found, the nearest first. -/
def findTreeNodeFor (key : ID) (parents : List Parent) :
    DHTBucketTreeNode → DHTBucketTreeNode × List Parent
  | leaf minId maxId bucket => (leaf minId maxId bucket, parents)
  | inner minId maxId left right =>
    if left.isInRange key then
      findTreeNodeFor key (⟨minId, maxId, left, right, true⟩ :: parents) left
    else findTreeNodeFor key (⟨minId, maxId, left, right, false⟩ :: parents) right

def collectNodes (isBad : DHTNode → Bool) (nodes : List DHTNode) (bucket : DHTBucket) :
    List DHTNode :=
  nodes ++ bucket.getGoodNodes isBad []

def collectDownwardLeftFirst (isBad : DHTNode → Bool) (nodes : List DHTNode) :
    DHTBucketTreeNode → List DHTNode
  | leaf _ _ bucket => collectNodes isBad nodes bucket
  | inner _ _ left right =>
    let nodes := collectDownwardLeftFirst isBad nodes left
    if nodes.length < DHTBucket.K then collectDownwardLeftFirst isBad nodes right else nodes

def collectDownwardRightFirst (isBad : DHTNode → Bool) (nodes : List DHTNode) :
    DHTBucketTreeNode → List DHTNode
  | leaf _ _ bucket => collectNodes isBad nodes bucket
  | inner _ _ left right =>
    let nodes := collectDownwardRightFirst isBad nodes right
    if nodes.length < DHTBucket.K then collectDownwardRightFirst isBad nodes left else nodes

/-- The loop of `collectUpward` over the parents of `from`. It ends in `none` where the bucket that
it reads is null. -/
def collectUpward (isBad : DHTNode → Bool) (nodes : List DHTNode) :
    List Parent → Option (List DHTNode)
  | [] => some nodes
  | parent :: parents =>
    (if parent.isLeft then parent.right.getBucket else parent.left.getBucket).bind fun bucket =>
      let nodes := collectNodes isBad nodes bucket
      if DHTBucket.K ≤ nodes.length then some nodes else collectUpward isBad nodes parents

def findClosestKNodes (isBad : DHTNode → Bool) (nodes : List DHTNode) (root : DHTBucketTreeNode)
    (key : ID) : Option (List DHTNode) :=
  if DHTBucket.K ≤ nodes.length then some nodes
  else
    let (tnode, parents) := findTreeNodeFor key [] root
    let nodes :=
      match parents with
      | [] => tnode.getBucket.map (collectNodes isBad nodes)
      | parent :: parents =>
        let nodes :=
          if parent.isLeft then collectDownwardLeftFirst isBad nodes parent.node
          else collectDownwardRightFirst isBad nodes parent.node
        if nodes.length < DHTBucket.K then collectUpward isBad nodes parents else some nodes
    nodes.map (·.take DHTBucket.K)

end DHTBucketTreeNode

def DHTRoutingTable.getClosestKNodes (isBad : DHTNode → Bool) (nodes : List DHTNode) (key : ID)
    (s : DHTRoutingTable) : Option (List DHTNode) :=
  s.root.findClosestKNodes isBad nodes key

/-! ## The order in which the buckets are asked -/

theorem DHTBucketTreeNode.collectNodes_eq (nodes : List DHTNode) (b : DHTBucket) :
    collectNodes isBad nodes b = nodes ++ b.goodNodes isBad := rfl

/-- `nodes` is what is gathered of `all` if one stops when there are `K`. -/
def Gathers (nodes all : List DHTNode) : Prop :=
  nodes <+: all ∧ (nodes.length < DHTBucket.K → nodes = all)

namespace Gathers

variable {nodes nodes' all all' : List DHTNode}

theorem take_eq (h : Gathers nodes all) : nodes.take DHTBucket.K = all.take DHTBucket.K := by
  obtain ⟨⟨rest, rfl⟩, hall⟩ := h
  rcases Nat.lt_or_ge nodes.length DHTBucket.K with hlt | hle
  · rw [← hall hlt]
  · rw [List.take_append_of_le_length hle]

/-- One goes on with `all'` if there are not yet enough. -/
theorem append (h : Gathers nodes all)
    (hlt : nodes.length < DHTBucket.K → Gathers nodes' (nodes ++ all'))
    (hle : ¬nodes.length < DHTBucket.K → nodes' = nodes) : Gathers nodes' (all ++ all') := by
  by_cases hn : nodes.length < DHTBucket.K
  · rw [← h.2 hn]
    exact hlt hn
  · rw [hle hn]
    exact ⟨h.1.trans (List.prefix_append _ _), fun h => absurd h hn⟩

theorem refl : Gathers nodes nodes := ⟨List.prefix_refl _, fun _ => rfl⟩

end Gathers

namespace DHTBucketTreeNode

open DHTBucket (K)

variable {localID : ID} {p k : Nat} {t : DHTBucketTreeNode}

theorem collectDownwardLeftFirst_gathers (isBad : DHTNode → Bool) (nodes : List DHTNode)
    (t : DHTBucketTreeNode) :
    Gathers (collectDownwardLeftFirst isBad nodes t)
      (nodes ++ t.leaves.flatMap (·.goodNodes isBad)) := by
  induction t generalizing nodes with
  | leaf minId maxId b =>
    rw [collectDownwardLeftFirst, leaves, List.flatMap_singleton]
    exact .refl
  | inner minId maxId l r ihl ihr =>
    rw [collectDownwardLeftFirst, leaves, List.flatMap_append, ← List.append_assoc]
    refine (ihl nodes).append (fun h => ?_) (fun h => if_neg h)
    rw [if_pos h]
    exact ihr _

theorem collectDownwardRightFirst_gathers (isBad : DHTNode → Bool) (nodes : List DHTNode)
    (t : DHTBucketTreeNode) :
    Gathers (collectDownwardRightFirst isBad nodes t)
      (nodes ++ t.leaves.reverse.flatMap (·.goodNodes isBad)) := by
  induction t generalizing nodes with
  | leaf minId maxId b =>
    rw [collectDownwardRightFirst, leaves, List.reverse_singleton, List.flatMap_singleton]
    exact .refl
  | inner minId maxId l r ihl ihr =>
    rw [collectDownwardRightFirst, leaves, List.reverse_append, List.flatMap_append,
      ← List.append_assoc]
    refine (ihr nodes).append (fun h => ?_) (fun h => if_neg h)
    rw [if_pos h]
    exact ihl _

theorem collectUpward_gathers (nodes : List DHTNode) (hn : nodes.length < K) (parents : List Parent)
    (h : ∀ f ∈ parents, f.sibling.isLeaf = true) :
    ∃ nodes', collectUpward isBad nodes parents = some nodes' ∧ Gathers nodes'
      (nodes ++ parents.flatMap fun f => f.sibling.leaves.flatMap (·.goodNodes isBad)) := by
  induction parents generalizing nodes with
  | nil =>
    refine ⟨nodes, rfl, ?_⟩
    rw [List.flatMap_nil, List.append_nil]
    exact .refl
  | cons f parents ih =>
    have hf := h f (List.mem_cons_self ..)
    obtain ⟨b, hb, hleaves⟩ : ∃ b,
        (if f.isLeft then f.right.getBucket else f.left.getBucket) = some b ∧
          f.sibling.leaves = [b] := by
      rw [← apply_ite getBucket, ← Parent.sibling]
      cases hs : f.sibling with
      | leaf minId maxId b => exact ⟨b, rfl, rfl⟩
      | inner => rw [hs] at hf; cases hf
    rw [collectUpward, hb, Option.bind_some, List.flatMap_cons, hleaves, List.flatMap_singleton,
      ← List.append_assoc, ← collectNodes_eq]
    dsimp only
    split
    next hle => exact ⟨_, rfl, List.prefix_append _ _, fun hlt => absurd hlt (not_lt.mpr hle)⟩
    next hlt => exact ih _ (not_le.mp hlt) fun f hf => h f (List.mem_cons_of_mem _ hf)

/-- The buckets of the trees next to the way down to `key`, as they are asked: the nearest tree
first, and a tree to the left of the way from its right end. -/
def besideWay (key : ID) : DHTBucketTreeNode → List (List DHTBucket)
  | leaf .. => []
  | inner _ _ left right =>
    if left.isInRange key then besideWay key left ++ [right.leaves]
    else besideWay key right ++ [left.leaves.reverse]

/-- All buckets in the order in which they are asked: the one for the key, and those of each tree
next to the way to it. -/
def askedBuckets (key : ID) (t : DHTBucketTreeNode) : List (List DHTBucket) :=
  [t.findBucketFor key] :: besideWay key t

def Parent.asked (f : Parent) : List DHTBucket :=
  if f.isLeft then f.right.leaves else f.left.leaves.reverse

theorem findTreeNodeFor_eq (key : ID) (parents : List Parent) (t : DHTBucketTreeNode) :
    (findTreeNodeFor key parents t).1.getBucket = some (t.findBucketFor key) ∧
      (findTreeNodeFor key parents t).2.map Parent.asked =
        besideWay key t ++ parents.map Parent.asked := by
  induction t generalizing parents with
  | leaf minId maxId b => exact ⟨rfl, rfl⟩
  | inner minId maxId l r ihl ihr =>
    rw [findTreeNodeFor, findBucketFor, besideWay]
    split
    · obtain ⟨hb, hp⟩ := ihl (⟨minId, maxId, l, r, true⟩ :: parents)
      refine ⟨hb, hp.trans ?_⟩
      rw [List.map_cons, List.append_assoc]
      rfl
    · obtain ⟨hb, hp⟩ := ihr (⟨minId, maxId, l, r, false⟩ :: parents)
      refine ⟨hb, hp.trans ?_⟩
      rw [List.map_cons, List.append_assoc]
      rfl

theorem Spans.isLeaf_of_not_local (h : Spans localID p k t)
    (hn : localID.toNat / 2 ^ (160 - p) ≠ k) : t.isLeaf = true := by
  cases h with
  | leaf => rfl
  | inner _ _ hlocal => exact absurd hlocal hn

theorem Spans.local_of_not_isLeaf (h : Spans localID p k t) (hn : ¬t.isLeaf = true) :
    localID.toNat / 2 ^ (160 - p) = k :=
  not_ne_iff.mp fun hne => hn (h.isLeaf_of_not_local hne)

theorem findTreeNodeFor_of_isLeaf (h : t.isLeaf = true) (parents : List Parent) :
    findTreeNodeFor key parents t = (t, parents) := by
  cases t with
  | leaf => rfl
  | inner => cases h

/-- The parents `fs` of the leaf for a key: the leaf is a child of the nearest, and next to the
others there are leaves. -/
structure IsWay (key : ID) (parents : List Parent) (t : DHTBucketTreeNode) (fs : List Parent) :
    Prop where
  parents_eq : (findTreeNodeFor key parents t).2 = fs ++ parents
  child_eq : ∀ f ∈ fs.head?, f.child = (findTreeNodeFor key parents t).1
  sibling_isLeaf : ∀ f ∈ fs.tail, f.sibling.isLeaf = true
  nil_iff : fs = [] ↔ t.isLeaf = true

/-- From `t` the way goes to its child and on from there. -/
theorem IsWay.of_child {f : Parent} {parents fs : List Parent}
    (h : IsWay key (f :: parents) f.child fs)
    (ht : findTreeNodeFor key parents f.node = findTreeNodeFor key (f :: parents) f.child)
    (hs : ¬f.child.isLeaf = true → f.sibling.isLeaf = true) :
    IsWay key parents f.node (fs ++ [f]) where
  parents_eq := by rw [ht, h.parents_eq, List.append_assoc, List.singleton_append]
  child_eq := by
    cases fs with
    | nil =>
      intro f' hf'
      obtain rfl : f = f' := Option.some.inj hf'
      rw [ht, findTreeNodeFor_of_isLeaf (h.nil_iff.mp rfl)]
    | cons => exact ht ▸ h.child_eq
  sibling_isLeaf := by
    cases fs with
    | nil => exact fun _ h => nomatch h
    | cons f' fs =>
      intro f'' hf''
      rcases List.mem_append.mp hf'' with hf'' | hf''
      · exact h.sibling_isLeaf f'' hf''
      · obtain rfl := List.mem_singleton.mp hf''
        exact hs fun hl => List.cons_ne_nil _ _ (h.nil_iff.mpr hl)
  nil_iff := by
    refine ⟨fun h => absurd h (List.append_ne_nil_of_right_ne_nil _ (List.cons_ne_nil _ _)),
      fun h => ?_⟩
    cases h

/-- Off the way to the local id there are leaves, so next to a way there is no more than one tree,
next to the leaf at its end. -/
theorem Spans.isWay (h : Spans localID p k t) (key : ID) (parents : List Parent) :
    ∃ fs, IsWay key parents t fs := by
  induction h generalizing parents with
  | leaf =>
    exact ⟨[], rfl, fun _ h => (nomatch h), fun _ h => (nomatch h), fun _ => rfl, fun _ => rfl⟩
  | @inner p k minId maxId l r hrange hp hlocal hl hr ihl ihr =>
    have hother : ∀ a b : Nat, a ≠ b → localID.toNat / 2 ^ (160 - (p + 1)) = a →
        localID.toNat / 2 ^ (160 - (p + 1)) ≠ b := fun a b hab ha hb => hab (ha.symm.trans hb)
    by_cases hkey : l.isInRange key = true
    · obtain ⟨fs, hfs⟩ := ihl (⟨minId, maxId, l, r, true⟩ :: parents)
      exact ⟨_, hfs.of_child (f := ⟨minId, maxId, l, r, true⟩) (if_pos hkey) fun hl' =>
        hr.isLeaf_of_not_local (hother _ _ (by omega) (hl.local_of_not_isLeaf hl'))⟩
    · obtain ⟨fs, hfs⟩ := ihr (⟨minId, maxId, l, r, false⟩ :: parents)
      exact ⟨_, hfs.of_child (f := ⟨minId, maxId, l, r, false⟩) (if_neg hkey) fun hr' =>
        hl.isLeaf_of_not_local (hother _ _ (by omega) (hr.local_of_not_isLeaf hr'))⟩

theorem Parent.asked_eq {f : Parent} (h : f.sibling.isLeaf = true) :
    f.asked = f.sibling.leaves := by
  rw [Parent.asked]
  rw [Parent.sibling] at h ⊢
  split
  next => rfl
  next hf =>
    rw [if_neg hf] at h
    cases hl : f.left with
    | leaf => rfl
    | inner => rw [hl] at h; cases h

theorem leaves_of_getBucket {b : DHTBucket} (h : t.getBucket = some b) : t.leaves = [b] := by
  cases t with
  | leaf => exact congrArg (fun b => [b]) (Option.some.inj h)
  | inner => cases h

/-- The leaf for a key and the tree next to it. -/
theorem IsWay.collectDownward (isBad : DHTNode → Bool) {f : Parent} {fs : List Parent}
    (h : IsWay key [] t (f :: fs)) : Gathers
      (if f.isLeft then collectDownwardLeftFirst isBad [] f.node
        else collectDownwardRightFirst isBad [] f.node)
      ((t.findBucketFor key).goodNodes isBad ++ f.asked.flatMap (·.goodNodes isBad)) := by
  have hchild := leaves_of_getBucket (h.child_eq f rfl ▸ (findTreeNodeFor_eq key [] t).1)
  rw [Parent.child] at hchild
  rw [Parent.asked]
  split
  next hf =>
    rw [if_pos hf] at hchild
    have hg := collectDownwardLeftFirst_gathers isBad [] f.node
    rwa [Parent.node, leaves, hchild, List.singleton_append, List.flatMap_cons,
      List.nil_append] at hg
  next hf =>
    rw [if_neg hf] at hchild
    have hg := collectDownwardRightFirst_gathers isBad [] f.node
    rwa [Parent.node, leaves, hchild, List.reverse_append, List.reverse_singleton,
      List.singleton_append, List.flatMap_cons, List.nil_append] at hg

/-- The buckets next to the ancestors. -/
theorem IsWay.collectUpward (isBad : DHTNode → Bool) {f : Parent} {fs : List Parent}
    (h : IsWay key [] t (f :: fs)) {nodes : List DHTNode} (hn : nodes.length < K) :
    ∃ nodes', collectUpward isBad nodes fs = some nodes' ∧
      Gathers nodes' (nodes ++ (fs.map Parent.asked).flatten.flatMap (·.goodNodes isBad)) := by
  have hasked : fs.flatMap (fun f => f.sibling.leaves.flatMap (·.goodNodes isBad)) =
      (fs.map Parent.asked).flatten.flatMap (·.goodNodes isBad) := by
    rw [List.flatMap_def, List.flatMap_def, List.map_flatten, List.flatten_flatten, List.map_map,
      List.map_map]
    refine congrArg List.flatten (List.map_congr_left fun f hf => ?_)
    rw [← Parent.asked_eq (h.sibling_isLeaf f hf)]
    exact List.flatMap_def
  rw [← hasked]
  exact collectUpward_gathers nodes hn fs h.sibling_isLeaf

/-- **What is returned**: the first `K` good nodes of the buckets in the order in which they are
asked. No bucket that is read is null. -/
theorem Spans.findClosestKNodes_eq (h : Spans localID p k t) (key : ID) :
    findClosestKNodes isBad [] t key =
      some (((askedBuckets key t).flatten.flatMap (·.goodNodes isBad)).take K) := by
  obtain ⟨fs, hfs⟩ := h.isWay key []
  obtain ⟨hb, hasked⟩ := findTreeNodeFor_eq key [] t
  have heq := hfs.parents_eq
  rw [List.append_nil] at heq
  rw [List.map_nil, List.append_nil, heq] at hasked
  rw [findClosestKNodes, if_neg (by decide), askedBuckets, ← hasked, List.flatten_cons,
    List.singleton_append, List.flatMap_cons]
  dsimp only
  rw [heq]
  cases fs with
  | nil =>
    dsimp only
    rw [hb, Option.map_some, Option.map_some, collectNodes_eq, List.nil_append, List.map_nil,
      List.flatten_nil, List.flatMap_nil, List.append_nil]
  | cons f fs =>
    dsimp only
    have hdown := hfs.collectDownward isBad
    rw [List.map_cons, List.flatten_cons, List.flatMap_append, ← List.append_assoc]
    generalize (if f.isLeft then collectDownwardLeftFirst isBad [] f.node
      else collectDownwardRightFirst isBad [] f.node) = nodes at hdown ⊢
    split
    next hlt =>
      obtain ⟨nodes', heq', hg⟩ := hfs.collectUpward isBad hlt
      rw [heq', Option.map_some, (hdown.append (fun _ => hg) (fun h => absurd hlt h)).take_eq]
    next hge =>
      rw [Option.map_some, (hdown.append (fun h => absurd h hge) (fun _ => rfl)).take_eq]

end DHTBucketTreeNode

/-! ## Distances of ranges -/

theorem xor_left_cancel {a b c : Nat} (h : a ^^^ b = a ^^^ c) : b = c := by
  have h' := congrArg (a ^^^ ·) h
  simpa only [← Nat.xor_assoc, Nat.xor_self, Nat.zero_xor] using h'

theorem ID.distance_div (key id : ID) (q : Nat) :
    key.distance id / 2 ^ q = key.toNat / 2 ^ q ^^^ id.toNat / 2 ^ q := by
  rw [ID.distance, BitVec.toNat_xor, Nat.xor_div_two_pow]

theorem ID.distance_lt_of_div {key x y : ID} {q : Nat}
    (h : key.distance x / 2 ^ q < key.distance y / 2 ^ q) : key.distance x < key.distance y :=
  not_le.mp fun hle => not_le.mpr h (Nat.div_le_div_right hle)

/-- What has the prefix of the key is closer than what has not. -/
theorem ID.distance_lt_of_prefix {key x y : ID} {q : Nat} (hx : x.toNat / 2 ^ q = key.toNat / 2 ^ q)
    (hy : y.toNat / 2 ^ q ≠ key.toNat / 2 ^ q) : key.distance x < key.distance y := by
  refine ID.distance_lt_of_div (q := q) ?_
  rw [ID.distance_div, ID.distance_div, hx, Nat.xor_self, Nat.pos_iff_ne_zero]
  exact fun h => hy (xor_left_cancel (h.trans (Nat.xor_self _).symm))

namespace DHTBucket

variable {b b' : DHTBucket}

/-- No id is in both ranges. -/
def Disjoint (b b' : DHTBucket) : Prop :=
  ∀ id, b.isInRange id = true → ¬b'.isInRange id = true

theorem Disjoint.symm (h : Disjoint b b') : Disjoint b' b := fun id hid hid' => h id hid' hid

/-- Every id of `b` is closer to the key than every id of `b'`. -/
def Closer (key : ID) (b b' : DHTBucket) : Prop :=
  ∀ x y, b.isInRange x = true → b'.isInRange y = true → key.distance x < key.distance y

theorem Covers.isInRange_min {localID : ID} {p k : Nat} (hb : b.Covers localID p k) :
    b.isInRange b.min = true := by
  rw [DHTBucket.isInRange_iff, hb.range.min_eq, hb.range.max_eq]
  exact ⟨le_refl _, Nat.le_add_right ..⟩

/-- Two ranges that are disjoint differ in a prefix, which decides about the distances. -/
theorem Disjoint.prefix {localID : ID} {p k p' k' : Nat} (h : Disjoint b b')
    (hb : b.Covers localID p k) (hb' : b'.Covers localID p' k') :
    ∃ q c c', c ≠ c' ∧ (∀ x, b.isInRange x = true → x.toNat / 2 ^ q = c) ∧
      ∀ y, b'.isInRange y = true → y.toNat / 2 ^ q = c' := by
  wlog hpp : p ≤ p' generalizing b b' p k p' k'
  · obtain ⟨q, c, c', hne, hx, hy⟩ := this h.symm hb' hb (by omega)
    exact ⟨q, c', c, hne.symm, hy, hx⟩
  have hdiv : ∀ y : ID, y.toNat / 2 ^ (160 - p) =
      y.toNat / 2 ^ (160 - p') / 2 ^ (160 - p - (160 - p')) := fun y => by
    rw [Nat.div_div_eq_div_mul, ← Nat.pow_add]
    congr 2
    omega
  refine ⟨160 - p, k, k' / 2 ^ (160 - p - (160 - p')), ?_, fun x hx => (hb.isInRange_iff x).mp hx,
    fun y hy => by rw [hdiv, (hb'.isInRange_iff y).mp hy]⟩
  rintro rfl
  -- the least id of `b'` would be in both
  refine h b'.min ((hb.isInRange_iff _).mpr ?_) hb'.isInRange_min
  rw [hdiv, (hb'.isInRange_iff _).mp hb'.isInRange_min]

/-- Of two disjoint ranges one is closer as a whole, and any two ids tell which. -/
theorem Disjoint.closer_iff {localID : ID} {p k p' k' : Nat} (h : Disjoint b b')
    (hb : b.Covers localID p k) (hb' : b'.Covers localID p' k') {x y : ID}
    (hx : b.isInRange x = true) (hy : b'.isInRange y = true) :
    Closer key b b' ↔ key.distance x < key.distance y := by
  obtain ⟨q, c, c', hne, hc, hc'⟩ := h.prefix hb hb'
  refine ⟨fun h => h x y hx hy, fun hlt x' y' hx' hy' => ID.distance_lt_of_div (q := q) ?_⟩
  have hle := Nat.div_le_div_right (c := 2 ^ q) hlt.le
  rw [ID.distance_div, ID.distance_div, hc _ hx, hc' _ hy] at hle
  rw [ID.distance_div, ID.distance_div, hc _ hx', hc' _ hy']
  exact lt_of_le_of_ne hle fun heq => hne (xor_left_cancel heq)

theorem Disjoint.le_iff {localID : ID} {p k p' k' : Nat} (h : Disjoint b b')
    (hb : b.Covers localID p k) (hb' : b'.Covers localID p' k') {x y : ID}
    (hx : b.isInRange x = true) (hy : b'.isInRange y = true) :
    key.distance x ≤ key.distance y ↔ key.distance b.min < key.distance b'.min := by
  rw [← h.closer_iff hb hb' hb.isInRange_min hb'.isInRange_min, h.closer_iff hb hb' hx hy]
  refine ⟨fun hle => lt_of_le_of_ne hle fun heq => ?_, le_of_lt⟩
  obtain rfl := ID.distance_inj heq
  exact h x hx hy

theorem Consecutive.le {lo hi : Nat} {bs : List DHTBucket} (h : Consecutive lo bs hi) :
    ∀ b ∈ bs, lo ≤ b.min.toNat := by
  induction h with
  | nil => exact fun b hb => absurd hb List.not_mem_nil
  | @cons b bs hi hle h ih =>
    intro b' hb'
    rcases List.mem_cons.mp hb' with rfl | hb'
    · exact le_refl _
    · exact (by omega : b.min.toNat ≤ b.max.toNat + 1).trans (ih b' hb')

theorem Consecutive.pairwise_disjoint {lo hi : Nat} {bs : List DHTBucket}
    (h : Consecutive lo bs hi) : bs.Pairwise Disjoint := by
  induction h with
  | nil => exact .nil
  | @cons b bs hi hle h ih =>
    refine List.pairwise_cons.mpr ⟨fun b' hb' id hid hid' => ?_, ih⟩
    have h1 := ((isInRange_iff ..).mp hid).2
    have h2 := ((isInRange_iff ..).mp hid').1
    have h3 := h.le b' hb'
    omega

end DHTBucket

namespace DHTBucketTreeNode

theorem besideWay_perm (key : ID) (t : DHTBucketTreeNode) :
    (askedBuckets key t).flatten.Perm t.leaves := by
  induction t with
  | leaf minId maxId b => exact .refl _
  | inner minId maxId l r ihl ihr =>
    rw [askedBuckets, List.flatten_cons] at ihl ihr
    rw [askedBuckets, besideWay, findBucketFor, leaves, List.flatten_cons]
    split
    · rw [List.flatten_append, List.flatten_singleton, ← List.append_assoc]
      exact ihl.append_right _
    · rw [List.flatten_append, List.flatten_singleton, ← List.append_assoc]
      exact (ihr.append (List.reverse_perm _)).trans List.perm_append_comm

theorem Spans.div_of_mem_leaves (h : Spans localID p k t) :
    ∀ b ∈ t.leaves, ∀ id, b.isInRange id = true → id.toNat / 2 ^ (160 - p) = k := by
  induction h with
  | leaf hcov hk =>
    intro b hb id hid
    obtain rfl := List.mem_singleton.mp hb
    exact (hcov.isInRange_iff id).mp hid
  | @inner p k minId maxId l r hrange hp hlocal hl hr ihl ihr =>
    intro b hb id hid
    rw [show 160 - p = 160 - (p + 1) + 1 by omega, Nat.pow_succ, ← Nat.div_div_eq_div_mul]
    rcases List.mem_append.mp hb with hb | hb
    · have := ihl b hb id hid
      omega
    · have := ihr b hb id hid
      omega

/-- The buckets of the half with the key are closer than those of the other half. -/
theorem Spans.closer {q k k' : Nat} {t t' : DHTBucketTreeNode} (h : Spans localID q k t)
    (h' : Spans localID q k' t') (hne : k ≠ k') (hkey : key.toNat / 2 ^ (160 - q) = k) :
    ∀ b ∈ t.leaves, ∀ b' ∈ t'.leaves, b.Closer key b' := fun b hb b' hb' x y hx hy =>
  ID.distance_lt_of_prefix ((h.div_of_mem_leaves b hb x hx).trans hkey.symm) (by
    rw [h'.div_of_mem_leaves b' hb' y hy, hkey]
    exact hne.symm)

/-- What is asked first is closer: only the buckets of one tree can be out of order. -/
theorem Spans.pairwise_closer (h : Spans localID p k t) (hkey : key.toNat / 2 ^ (160 - p) = k) :
    (askedBuckets key t).Pairwise fun bs bs' => ∀ b ∈ bs, ∀ b' ∈ bs', b.Closer key b' := by
  induction h with
  | leaf => exact List.pairwise_singleton ..
  | @inner p k minId maxId l r hrange hp hlocal hl hr ihl ihr =>
    rw [askedBuckets, besideWay, DHTBucketTreeNode.findBucketFor]
    split
    next hleft =>
      have hkey' := (hl.isInRange_iff key).mp hleft
      refine List.pairwise_append.mpr ⟨ihl hkey', List.pairwise_singleton .., ?_⟩
      intro bs hbs bs' hbs' b hb b' hb'
      obtain rfl := List.mem_singleton.mp hbs'
      exact hl.closer hr (by omega) hkey' b
        ((besideWay_perm key l).mem_iff.mp (List.mem_flatten_of_mem hbs hb)) b' hb'
    next hleft =>
      have hkey' := right_of_not_left hp hl hkey hleft
      refine List.pairwise_append.mpr ⟨ihr hkey', List.pairwise_singleton .., ?_⟩
      intro bs hbs bs' hbs' b hb b' hb'
      obtain rfl := List.mem_singleton.mp hbs'
      exact hr.closer hl (by omega) hkey' b
        ((besideWay_perm key r).mem_iff.mp (List.mem_flatten_of_mem hbs hb)) b'
        (List.mem_reverse.mp hb')

end DHTBucketTreeNode

/-! ## Where the cut goes through -/

/-- None of the first `n` is farther than one of the others. -/
def Cut (key : ID) (n : Nat) (nodes : List DHTNode) : Prop :=
  ∀ x ∈ nodes.take n, ∀ y ∈ nodes.drop n, key.distance x.id ≤ key.distance y.id

theorem cut_append {n : Nat} {as bs : List DHTNode} : Cut key n (as ++ bs) ↔
    Cut key n as ∧ Cut key (n - as.length) bs ∧
      ∀ x ∈ as.take n, ∀ y ∈ bs.drop (n - as.length), key.distance x.id ≤ key.distance y.id := by
  rw [Cut, List.take_append, List.drop_append]
  constructor
  · intro h
    exact ⟨fun x hx y hy => h x (List.mem_append_left _ hx) y (List.mem_append_left _ hy),
      fun x hx y hy => h x (List.mem_append_right _ hx) y (List.mem_append_right _ hy),
      fun x hx y hy => h x (List.mem_append_left _ hx) y (List.mem_append_right _ hy)⟩
  · rintro ⟨has, hbs, hab⟩ x hx y hy
    rcases List.mem_append.mp hx with hx | hx <;> rcases List.mem_append.mp hy with hy | hy
    · exact has x hx y hy
    · exact hab x hx y hy
    · -- some of `as` are left, so none of `bs` is taken
      have hlen : n < as.length := by
        have := List.length_pos_of_mem hy
        rw [List.length_drop] at this
        omega
      rw [Nat.sub_eq_zero_of_le hlen.le] at hx
      exact absurd hx (by simp)
    · exact hbs x hx y hy

/-- What a bucket gives of its good nodes, and what is left of them. -/
structure Share where
  bucket : DHTBucket
  taken : List DHTNode
  left : List DHTNode

/-- What each of the buckets gives if they are asked in this order for `room` nodes. -/
def shares (isBad : DHTNode → Bool) : Nat → List DHTBucket → List Share
  | _, [] => []
  | room, b :: bs =>
    let good := b.goodNodes isBad
    ⟨b, good.take room, good.drop room⟩ :: shares isBad (room - good.length) bs

/-- The buckets are in the order of their distances, where it matters: a bucket that gives nodes
comes before one that has nodes left only if it is the closer one. And a bucket gives the nodes that
are closest. -/
def InOrder (key : ID) (ws : List Share) : Prop :=
  (∀ w ∈ ws, ∀ n ∈ w.taken, ∀ m ∈ w.left, key.distance n.id ≤ key.distance m.id) ∧
    ws.Pairwise fun w w' => w.taken ≠ [] → w'.left ≠ [] →
      key.distance w.bucket.min < key.distance w'.bucket.min

/-- The buckets of each tree that is asked are in order. -/
def EachInOrder (isBad : DHTNode → Bool) (key : ID) : Nat → List (List DHTBucket) → Prop
  | _, [] => True
  | room, bs :: bss => InOrder key (shares isBad room bs) ∧
    EachInOrder isBad key (room - (bs.flatMap (·.goodNodes isBad)).length) bss

theorem drop_flatMap_goodNodes (room : Nat) (bs : List DHTBucket) :
    (bs.flatMap (·.goodNodes isBad)).drop room = (shares isBad room bs).flatMap (·.left) := by
  induction bs generalizing room with
  | nil => simp [shares]
  | cons b bs ih => rw [List.flatMap_cons, List.drop_append, ih, shares, List.flatMap_cons]

theorem of_mem_shares {room : Nat} {bs : List DHTBucket} {w : Share}
    (h : w ∈ shares isBad room bs) : w.bucket ∈ bs ∧ (∀ n ∈ w.taken, n ∈ w.bucket.nodes) ∧
      ∀ n ∈ w.left, n ∈ w.bucket.nodes := by
  induction bs generalizing room with
  | nil => exact absurd h List.not_mem_nil
  | cons b bs ih =>
    rcases List.mem_cons.mp h with rfl | h
    · exact ⟨List.mem_cons_self .., fun n hn => List.mem_of_mem_filter (List.mem_of_mem_take hn),
        fun n hn => List.mem_of_mem_filter (List.mem_of_mem_drop hn)⟩
    · exact ⟨List.mem_cons_of_mem _ (ih h).1, (ih h).2⟩

/-- The cut through the nodes of buckets whose ranges are disjoint. -/
theorem cut_flatMap_iff {localID : ID} {room : Nat} {bs : List DHTBucket}
    (hcov : ∀ b ∈ bs, b.Kept ∧ ∃ p k, b.Covers localID p k) (hdisj : bs.Pairwise (·.Disjoint ·)) :
    Cut key room (bs.flatMap (·.goodNodes isBad)) ↔ InOrder key (shares isBad room bs) := by
  induction bs generalizing room with
  | nil => simp [Cut, InOrder, shares]
  | cons b bs ih =>
    obtain ⟨hb, hbs⟩ := List.pairwise_cons.mp hdisj
    have hin : ∀ b' ∈ b :: bs, ∀ n ∈ b'.nodes, b'.isInRange n.id = true := fun b' hb' n hn =>
      (hcov b' hb').1.inRange n (List.mem_append_left _ hn)
    have hcross : ∀ w ∈ shares isBad (room - (b.goodNodes isBad).length) bs,
        ∀ x ∈ (b.goodNodes isBad).take room, ∀ y ∈ w.left, key.distance x.id ≤ key.distance y.id ↔
          key.distance b.min < key.distance w.bucket.min := by
      intro w hw x hx y hy
      obtain ⟨hwb, -, hleft⟩ := of_mem_shares hw
      obtain ⟨-, p, k, hc⟩ := hcov b (List.mem_cons_self ..)
      obtain ⟨-, p', k', hc'⟩ := hcov w.bucket (List.mem_cons_of_mem _ hwb)
      exact (hb w.bucket hwb).le_iff hc hc'
        (hin b (List.mem_cons_self ..) x (List.mem_of_mem_filter (List.mem_of_mem_take hx)))
        (hin w.bucket (List.mem_cons_of_mem _ hwb) y (hleft y hy))
    have hrest := @ih (room - (b.goodNodes isBad).length)
      (fun b' hb' => hcov b' (List.mem_cons_of_mem _ hb')) hbs
    rw [List.flatMap_cons, cut_append, hrest, drop_flatMap_goodNodes, shares]
    constructor
    · rintro ⟨hcut, ⟨hshare, hpair⟩, hlt⟩
      refine ⟨List.forall_mem_cons.mpr ⟨hcut, hshare⟩, List.pairwise_cons.mpr ⟨?_, hpair⟩⟩
      intro w hw hne hne'
      obtain ⟨x, hx⟩ := List.exists_mem_of_ne_nil _ hne
      obtain ⟨y, hy⟩ := List.exists_mem_of_ne_nil _ hne'
      exact (hcross w hw x hx y hy).mp (hlt x hx y (List.mem_flatMap.mpr ⟨w, hw, hy⟩))
    · rintro ⟨hshare, hpair⟩
      obtain ⟨hlt, hpair⟩ := List.pairwise_cons.mp hpair
      obtain ⟨hcut, hshare⟩ := List.forall_mem_cons.mp hshare
      refine ⟨hcut, ⟨hshare, hpair⟩, fun x hx y hy => ?_⟩
      obtain ⟨w, hw, hy⟩ := List.mem_flatMap.mp hy
      exact (hcross w hw x hx y hy).mpr
        (hlt w hw (List.ne_nil_of_mem hx) (List.ne_nil_of_mem hy))

/-- The cut through the nodes of trees that are asked in the order of the distances. -/
theorem cut_flatten_iff {localID : ID} {room : Nat} {bss : List (List DHTBucket)}
    (hcov : ∀ b ∈ bss.flatten, b.Kept ∧ ∃ p k, b.Covers localID p k)
    (hdisj : bss.flatten.Pairwise (·.Disjoint ·))
    (hcloser : bss.Pairwise fun bs bs' => ∀ b ∈ bs, ∀ b' ∈ bs', b.Closer key b') :
    Cut key room (bss.flatten.flatMap (·.goodNodes isBad)) ↔ EachInOrder isBad key room bss := by
  induction bss generalizing room with
  | nil => simp [Cut, EachInOrder]
  | cons bs bss ih =>
    rw [List.flatten_cons] at hcov hdisj
    obtain ⟨hbs, hbss, -⟩ := List.pairwise_append.mp hdisj
    obtain ⟨hfirst, hrest⟩ := List.pairwise_cons.mp hcloser
    have hin : ∀ b ∈ bs ++ bss.flatten, ∀ n ∈ b.goodNodes isBad, b.isInRange n.id = true :=
      fun b hb n hn => (hcov b hb).1.inRange n (List.mem_append_left _ (List.mem_of_mem_filter hn))
    rw [List.flatten_cons, List.flatMap_append, cut_append, EachInOrder,
      cut_flatMap_iff (fun b hb => hcov b (List.mem_append_left _ hb)) hbs,
      ih (fun b hb => hcov b (List.mem_append_right _ hb)) hbss hrest]
    refine ⟨fun h => ⟨h.1, h.2.1⟩, fun h => ⟨h.1, h.2, fun x hx y hy => ?_⟩⟩
    obtain ⟨b, hb, hxb⟩ := List.mem_flatMap.mp (List.mem_of_mem_take hx)
    obtain ⟨b', hb', hyb⟩ := List.mem_flatMap.mp (List.mem_of_mem_drop hy)
    obtain ⟨bs', hbs', hb'⟩ := List.mem_flatten.mp hb'
    exact (hfirst bs' hbs' b hb b' hb' x.id y.id (hin b (List.mem_append_left _ hb) x hxb)
      (hin b' (List.mem_append_right _ (List.mem_flatten_of_mem hbs' hb')) y hyb)).le

namespace DHTRoutingTable

/-- A call of `addNode(node)` or, if `good`, of `addGoodNode(node)`. -/
structure Add where
  isBad : DHTNode → Bool
  node : DHTNode
  good : Bool

def Add.event (a : Add) : Event :=
  if a.good then .addGoodNode a.isBad a.node else .addNode a.isBad a.node

/-- The table that calls of `addNode` lead to. -/
def filled (localNode : DHTNode) (adds : List Add) : DHTRoutingTable :=
  exec step (init localNode) (adds.map (·.event))

theorem inv_filled (localNode : DHTNode) (adds : List Add) : Inv (filled localNode adds) := by
  have hinv : ∀ s, Inv s → Inv (exec step s (adds.map (·.event))) := by
    induction adds with
    | nil => exact fun s hs => hs
    | cons a adds ih =>
      intro s hs
      refine ih _ (hs.step _ ?_)
      cases a with
      | mk isBad node good => cases good <;> trivial
  exact hinv _ (inv_init localNode)

/-- The nodes of the table that are not bad. -/
def goodNodes (isBad : DHTNode → Bool) (s : DHTRoutingTable) : List DHTNode :=
  s.root.leaves.flatMap (·.goodNodes isBad)

/-- What `getClosestKNodes` is for: as many good nodes as there are, up to `K`, each once, and none
that is left out is closer. -/
structure Closest (isBad : DHTNode → Bool) (key : ID) (s : DHTRoutingTable)
    (nodes : List DHTNode) : Prop where
  length_eq : nodes.length = min DHTBucket.K (s.goodNodes isBad).length
  distinct : (nodes.map (·.id)).Nodup
  good : ∀ n ∈ nodes, n ∈ s.goodNodes isBad
  closest : ∀ n ∈ nodes, ∀ m ∈ s.goodNodes isBad, m ∉ nodes →
    ¬key.distance m.id < key.distance n.id

theorem Inv.distinct {s : DHTRoutingTable} (h : Inv s) :
    ((s.goodNodes isBad).map (·.id)).Nodup := by
  have hin : ∀ b ∈ s.root.leaves, ∀ n ∈ b.goodNodes isBad, b.isInRange n.id = true :=
    fun b hb n hn => (h.spans.leaf_of_mem b hb).1.inRange n
      (List.mem_append_left _ (List.mem_of_mem_filter hn))
  rw [goodNodes, List.map_flatMap, List.nodup_flatMap]
  refine ⟨fun b hb => (h.spans.leaf_of_mem b hb).1.distinct.sublist
    (List.filter_sublist.map _), ?_⟩
  refine h.spans.consecutive.pairwise_disjoint.imp_of_mem fun hb hb' hd => ?_
  intro id hid hid'
  obtain ⟨n, hn, rfl⟩ := List.mem_map.mp hid
  obtain ⟨n', hn', heq⟩ := List.mem_map.mp hid'
  exact hd n.id (hin _ hb n hn) (heq ▸ hin _ hb' n' hn')

/-- **A call of `getClosestKNodes` is right if and only if** the buckets of the tree next to the
bucket for the key are in order, and the bucket that the cut goes through gives its closest
nodes. -/
theorem closest_iff (localNode : DHTNode) (adds : List Add) (isBad : DHTNode → Bool) (key : ID) :
    (∃ nodes, (filled localNode adds).getClosestKNodes isBad [] key = some nodes ∧
      Closest isBad key (filled localNode adds) nodes) ↔
    EachInOrder isBad key DHTBucket.K ((filled localNode adds).root.askedBuckets key) := by
  have hinv := inv_filled localNode adds
  generalize filled localNode adds = s at hinv ⊢
  have hperm := DHTBucketTreeNode.besideWay_perm key s.root
  have hcov : ∀ b ∈ (s.root.askedBuckets key).flatten,
      b.Kept ∧ ∃ p k, b.Covers s.localNode.id p k :=
    fun b hb => hinv.spans.leaf_of_mem b (hperm.mem_iff.mp hb)
  have hdisj : (s.root.askedBuckets key).flatten.Pairwise (·.Disjoint ·) :=
    (hperm.pairwise_iff fun h => h.symm).mpr hinv.spans.consecutive.pairwise_disjoint
  have hgood := hperm.flatMap_right (·.goodNodes isBad)
  rw [getClosestKNodes, hinv.spans.findClosestKNodes_eq,
    ← cut_flatten_iff hcov hdisj (hinv.spans.pairwise_closer (id_div key))]
  generalize (s.root.askedBuckets key).flatten.flatMap (·.goodNodes isBad) = all at hgood ⊢
  have hnodup : (all.map (·.id)).Nodup := (hgood.map (·.id)).nodup_iff.mpr hinv.distinct
  constructor
  · rintro ⟨nodes, heq, h⟩ x hx y hy
    obtain rfl := Option.some.inj heq
    refine not_lt.mp (h.closest x hx y (hgood.mem_iff.mp (List.mem_of_mem_drop hy)) fun hy' => ?_)
    exact List.disjoint_take_drop (List.Nodup.of_map _ hnodup) (le_refl _) hy' hy
  · intro h
    refine ⟨_, rfl, ⟨?_, ?_, ?_, fun x hx y hy hne => ?_⟩⟩
    · rw [List.length_take, hgood.length_eq]
      rfl
    · exact hnodup.sublist ((List.take_sublist ..).map _)
    · exact fun n hn => hgood.mem_iff.mp (List.mem_of_mem_take hn)
    · have hy' := hgood.mem_iff.mpr hy
      rw [← List.take_append_drop DHTBucket.K all] at hy'
      exact not_lt.mpr (h x hx y ((List.mem_append.mp hy').resolve_left hne))

/-- The bucket for the key is empty. Next to it there are two; the key is of the kind that is closer
to the second, but it is the first that gives all its nodes. -/
theorem closest_counterexample :
    let node (n : Nat) : DHTNode := { ipaddr := "10.0.0.1", port := .ofNat n, id := .ofNat 160 n }
    let isBad : DHTNode → Bool := fun _ => false
    let near := (List.range 4).map fun n => node (2 ^ 159 + 2 ^ 158 + n)
    let far := (List.range 5).map fun n => node (2 ^ 159 + n + 1)
    let s := filled (node (2 ^ 159)) ((far ++ near).map fun n => ⟨isBad, n, true⟩)
    ¬∃ nodes, s.getClosestKNodes isBad [] (.ofNat 160 (2 ^ 158)) = some nodes ∧
      Closest isBad (.ofNat 160 (2 ^ 158)) s nodes := by
  intro node isBad near far s
  have hget : s.getClosestKNodes isBad [] (.ofNat 160 (2 ^ 158)) = some (far ++ near.take 3) := by
    decide +kernel
  rintro ⟨nodes, heq, h⟩
  obtain rfl := Option.some.inj (hget.symm.trans heq)
  exact h.closest (node (2 ^ 159 + 1)) (by decide +kernel) (node (2 ^ 159 + 2 ^ 158 + 3))
    (by decide +kernel) (by decide +kernel) (by decide +kernel)

end DHTRoutingTable

end FluxCore.Dht
