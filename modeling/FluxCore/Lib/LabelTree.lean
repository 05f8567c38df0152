import Mathlib.Data.Finset.Card
import Mathlib.Data.Finset.Range

/-!
# Trees of labels on a heap

Nodes live in numbered cells; a node names its parent and, under a label each, its children.
`IsTree` says that these links agree with each other and that every node is reached from the root.
Leaves are added and removed, and what a node carries is changed in place.
-/

namespace FluxCore

universe u v

/-! ## Heaps -/

/-- Cells that hold a value or are free, all of them free from `size` on. -/
structure Heap (ν : Type u) where
  cell : Nat → Option ν
  size : Nat
  free : ∀ a, size ≤ a → cell a = none

namespace Heap

variable {ν : Type u} {h : Heap ν} {a b : Nat} {n : ν}

def empty : Heap ν := ⟨fun _ => none, 0, fun _ _ => rfl⟩

def set (h : Heap ν) (a : Nat) (n : ν) : Heap ν where
  cell b := if b = a then some n else h.cell b
  size := max h.size (a + 1)
  free b hb := by
    rw [if_neg (by omega)]
    exact h.free b (by omega)

def erase (h : Heap ν) (a : Nat) : Heap ν where
  cell b := if b = a then none else h.cell b
  size := h.size
  free b hb := by
    split
    exacts [rfl, h.free b hb]

theorem cell_set : (h.set a n).cell b = if b = a then some n else h.cell b := rfl

@[simp] theorem cell_set_self : (h.set a n).cell a = some n := if_pos rfl

theorem cell_set_of_ne (hb : b ≠ a) : (h.set a n).cell b = h.cell b := if_neg hb

@[simp] theorem cell_erase_self : (h.erase a).cell a = none := if_pos rfl

theorem cell_erase_of_ne (hb : b ≠ a) : (h.erase a).cell b = h.cell b := if_neg hb

theorem set_set (m : ν) : (h.set a n).set a m = h.set a m := by
  have hcell : ((h.set a n).set a m).cell = (h.set a m).cell := by
    funext b
    simp only [cell_set]
    split <;> rfl
  have hsize : ((h.set a n).set a m).size = (h.set a m).size := by
    simp only [set]
    omega
  generalize (h.set a n).set a m = x at *
  generalize h.set a m = y at *
  cases x; cases y; cases hcell; cases hsize; rfl

/-- The cells in use. -/
def live (h : Heap ν) : Finset Nat := (Finset.range h.size).filter fun a => (h.cell a).isSome = true

theorem mem_live : a ∈ h.live ↔ ∃ n, h.cell a = some n := by
  rw [live, Finset.mem_filter, Finset.mem_range, Option.isSome_iff_exists]
  refine and_iff_right_of_imp fun ⟨n, hn⟩ => Nat.lt_of_not_le fun hle => ?_
  rw [h.free a hle] at hn
  cases hn

theorem live_set_of_mem (ha : a ∈ h.live) : (h.set a n).live = h.live := by
  ext b
  simp only [mem_live, cell_set]
  split
  next hb => exact iff_of_true ⟨n, rfl⟩ (hb ▸ mem_live.mp ha)
  · rfl

theorem live_erase : (h.erase a).live = h.live.erase a := by
  ext b
  rw [Finset.mem_erase, mem_live, mem_live]
  by_cases hb : b = a
  · rw [hb]
    simp
  · rw [cell_erase_of_ne hb]
    exact (and_iff_right hb).symm

/-- Where new values go: to a cell that is free. -/
structure Malloc (ν : Type u) where
  alloc : Heap ν → Nat
  cell_alloc : ∀ h : Heap ν, h.cell (alloc h) = none

instance : Inhabited (Malloc ν) := ⟨⟨Heap.size, fun h => h.free _ le_rfl⟩⟩

end Heap

/-! ## Nodes -/

/-- A node with its links to others. -/
structure LabelNode (κ : Type u) (β : Type v) where
  label : κ
  parent : Option Nat
  next : List (κ × Nat)
  data : β

variable {κ : Type u} {β : Type v} [DecidableEq κ]

namespace LabelNode

/-- The child under a label. -/
def find (n : LabelNode κ β) (l : κ) : Option Nat := n.next.lookup l

def addNext (n : LabelNode κ β) (l : κ) (c : Nat) : LabelNode κ β :=
  { n with next := (l, c) :: n.next.filter fun e => e.1 ≠ l }

def removeNext (n : LabelNode κ β) (l : κ) : LabelNode κ β :=
  { n with next := n.next.filter fun e => e.1 ≠ l }

theorem lookup_filter_ne (next : List (κ × Nat)) (l k : κ) :
    (next.filter fun e => e.1 ≠ l).lookup k = if k = l then none else next.lookup k := by
  induction next with
  | nil => split <;> rfl
  | cons e next ih =>
    rw [List.filter_cons]
    by_cases hl : e.1 = l
    · rw [if_neg (by simpa using hl), ih, List.lookup_cons]
      split
      · rfl
      next hk => rw [beq_false_of_ne fun heq => hk (heq.trans hl)]
    · rw [if_pos (by simpa using hl), List.lookup_cons, List.lookup_cons, ih]
      by_cases hk : k = e.1
      · simp [hk, hl]
      · rw [beq_false_of_ne hk]

theorem find_addNext (n : LabelNode κ β) (l k : κ) (c : Nat) :
    (n.addNext l c).find k = if k = l then some c else n.find k := by
  rw [find, addNext, List.lookup_cons, lookup_filter_ne]
  by_cases hk : k = l
  · simp [hk]
  · simp [beq_false_of_ne hk, hk, find]

theorem find_removeNext (n : LabelNode κ β) (l k : κ) :
    (n.removeNext l).find k = if k = l then none else n.find k :=
  lookup_filter_ne ..

end LabelNode

/-! ## Trees -/

namespace LabelTree

/-- The nodes below the root. -/
inductive Reach (h : Heap (LabelNode κ β)) (root : Nat) : Nat → Prop
  | root : Reach h root root
  | child {a c : Nat} {n : LabelNode κ β} {l : κ} (ha : Reach h root a)
      (hn : h.cell a = some n) (hc : n.find l = some c) : Reach h root c

/-- The links of the nodes agree, and all nodes are below the root. -/
structure IsTree (h : Heap (LabelNode κ β)) (root : Nat) : Prop where
  rootNode : ∃ n, h.cell root = some n ∧ n.parent = none
  childNode : ∀ a n l c, h.cell a = some n → n.find l = some c →
    ∃ m, h.cell c = some m ∧ m.parent = some a ∧ m.label = l
  parentNode : ∀ a n, h.cell a = some n → a ≠ root →
    ∃ p m, n.parent = some p ∧ h.cell p = some m ∧ m.find n.label = some a
  reach : ∀ a n, h.cell a = some n → Reach h root a

variable {h h' : Heap (LabelNode κ β)} {root a p c : Nat} {n m : LabelNode κ β} {l : κ} {d : β}

/-- What a node carries changes. -/
def setData (h : Heap (LabelNode κ β)) (a : Nat) (n : LabelNode κ β) (d : β) :
    Heap (LabelNode κ β) :=
  h.set a { n with data := d }

/-- A leaf `c` is put under the node `n` of the cell `p`. -/
def addChild (h : Heap (LabelNode κ β)) (p : Nat) (n : LabelNode κ β) (l : κ) (c : Nat) (d : β) :
    Heap (LabelNode κ β) :=
  (h.set c ⟨l, some p, [], d⟩).set p (n.addNext l c)

/-- The leaf `c` is taken away from under the node `n` of the cell `p`. -/
def removeChild (h : Heap (LabelNode κ β)) (p : Nat) (n : LabelNode κ β) (l : κ) (c : Nat) :
    Heap (LabelNode κ β) :=
  (h.erase c).set p (n.removeNext l)

/-! ### What the nodes carry -/

theorem of_addChild {b : Nat} (hp : h.cell p = some n)
    (hm : (addChild h p n l c d).cell b = some m) :
    b = c ∧ m.data = d ∨ ∃ m', h.cell b = some m' ∧ m.data = m'.data := by
  rw [addChild, Heap.cell_set] at hm
  split at hm
  next hb => exact .inr ⟨n, by rw [hb, hp], by cases hm; rfl⟩
  next hb =>
    rw [Heap.cell_set] at hm
    split at hm
    next hbc => exact .inl ⟨hbc, by cases hm; rfl⟩
    · exact .inr ⟨m, hm, rfl⟩

theorem exists_addChild {b : Nat} (hp : h.cell p = some n) (hc : h.cell c = none)
    (hm : h.cell b = some m) (d : β) :
    ∃ m', (addChild h p n l c d).cell b = some m' ∧ m'.data = m.data := by
  by_cases hb : b = p
  · subst hb
    obtain rfl := Option.some.inj (hp.symm.trans hm)
    exact ⟨_, Heap.cell_set_self, rfl⟩
  · have hbc : b ≠ c := by
      rintro rfl
      rw [hm] at hc
      cases hc
    exact ⟨m, by rw [addChild, Heap.cell_set_of_ne hb, Heap.cell_set_of_ne hbc, hm], rfl⟩

theorem of_removeChild {b : Nat} (hp : h.cell p = some n)
    (hm : (removeChild h p n l c).cell b = some m) :
    ∃ m', h.cell b = some m' ∧ m.data = m'.data := by
  rw [removeChild, Heap.cell_set] at hm
  split at hm
  next hb => exact ⟨n, by rw [hb, hp], by cases hm; rfl⟩
  next hb =>
    by_cases hbc : b = c
    · rw [hbc, Heap.cell_erase_self] at hm
      cases hm
    · exact ⟨m, (Heap.cell_erase_of_ne hbc).symm.trans hm, rfl⟩

theorem exists_removeChild {b : Nat} (hp : h.cell p = some n) (hbc : b ≠ c)
    (hm : h.cell b = some m) :
    ∃ m', (removeChild h p n l c).cell b = some m' ∧ m'.data = m.data := by
  by_cases hb : b = p
  · subst hb
    obtain rfl := Option.some.inj (hp.symm.trans hm)
    exact ⟨_, Heap.cell_set_self, rfl⟩
  · exact ⟨m, by rw [removeChild, Heap.cell_set_of_ne hb, Heap.cell_erase_of_ne hbc, hm], rfl⟩

/-- A cell less is in use. -/
theorem live_removeChild (hp : h.cell p = some n) (hpc : p ≠ c) :
    (removeChild h p n l c).live = h.live.erase c := by
  rw [removeChild, Heap.live_set_of_mem, Heap.live_erase]
  rw [Heap.mem_live]
  exact ⟨n, (Heap.cell_erase_of_ne hpc).trans hp⟩

/-! ### The tree -/

/-- A node whose links go down as before, and maybe further. -/
def Extends (n n' : LabelNode κ β) : Prop :=
  n'.label = n.label ∧ n'.parent = n.parent ∧ ∀ l c, n.find l = some c → n'.find l = some c

theorem Reach.mono (hext : ∀ a n, h.cell a = some n → ∃ n', h'.cell a = some n' ∧ Extends n n')
    (ha : Reach h root a) : Reach h' root a := by
  induction ha with
  | root => exact .root
  | child _ hn hc ih =>
    obtain ⟨n', hn', -, -, hfind⟩ := hext _ _ hn
    exact .child ih hn' (hfind _ _ hc)

namespace IsTree

theorem parent_ne_root (ht : IsTree h root) (ha : h.cell a = some n) (hc : n.find l = some c) :
    c ≠ root := by
  rintro rfl
  obtain ⟨m, hm, hparent, -⟩ := ht.childNode a n l c ha hc
  obtain ⟨r, hr, hnone⟩ := ht.rootNode
  rw [hr, Option.some.injEq] at hm
  rw [← hm, hnone] at hparent
  cases hparent

/-- A node is the child of one node only. -/
theorem child_inj (ht : IsTree h root) {b : Nat} {k : κ} (ha : h.cell a = some n)
    (hb : h.cell b = some m) (hn : n.find l = some c) (hm : m.find k = some c) :
    a = b ∧ l = k := by
  obtain ⟨x, hx, hpx, hlx⟩ := ht.childNode a n l c ha hn
  obtain ⟨y, hy, hpy, hly⟩ := ht.childNode b m k c hb hm
  obtain rfl := Option.some.inj (hx.symm.trans hy)
  exact ⟨Option.some.inj (hpx.symm.trans hpy), hlx.symm.trans hly⟩

/-- What the nodes carry does not matter. -/
theorem setData (ht : IsTree h root) (ha : h.cell a = some n) (d : β) :
    IsTree (setData h a n d) root := by
  have hcell : ∀ b x, (LabelTree.setData h a n d).cell b = some x → ∃ y, h.cell b = some y ∧
      y.label = x.label ∧ y.parent = x.parent ∧ y.next = x.next := by
    intro b x hx
    rw [LabelTree.setData, Heap.cell_set] at hx
    split at hx
    next hb => exact ⟨n, hb ▸ ha, by cases hx; exact ⟨rfl, rfl, rfl⟩⟩
    next hb => exact ⟨x, hx, rfl, rfl, rfl⟩
  have hcell' : ∀ b y, h.cell b = some y → ∃ x, (LabelTree.setData h a n d).cell b = some x ∧
      x.label = y.label ∧ x.parent = y.parent ∧ x.next = y.next := by
    intro b y hy
    rw [LabelTree.setData, Heap.cell_set]
    split
    next hb =>
      obtain rfl := Option.some.inj (ha.symm.trans (hb ▸ hy))
      exact ⟨_, rfl, rfl, rfl, rfl⟩
    next hb => exact ⟨y, hy, rfl, rfl, rfl⟩
  have hext : ∀ b y, h.cell b = some y →
      ∃ x, (LabelTree.setData h a n d).cell b = some x ∧ Extends y x := by
    intro b y hy
    obtain ⟨x, hx, hl, hp, hnext⟩ := hcell' b y hy
    exact ⟨x, hx, hl, hp, fun l c hc => by rw [LabelNode.find, hnext]; exact hc⟩
  refine ⟨?_, ?_, ?_, ?_⟩
  · obtain ⟨r, hr, hparent⟩ := ht.rootNode
    obtain ⟨x, hx, -, hp, -⟩ := hcell' _ _ hr
    exact ⟨x, hx, hp.trans hparent⟩
  · intro b x k c' hx hc
    obtain ⟨y, hy, -, -, hnext⟩ := hcell b x hx
    obtain ⟨m, hm, hp, hl⟩ := ht.childNode b y k c' hy (by rw [LabelNode.find, hnext]; exact hc)
    obtain ⟨z, hz, hlz, hpz, -⟩ := hcell' _ _ hm
    exact ⟨z, hz, hpz.trans hp, hlz.trans hl⟩
  · intro b x hx hne
    obtain ⟨y, hy, hl, hp, -⟩ := hcell b x hx
    obtain ⟨q, m, hq, hm, hfind⟩ := ht.parentNode b y hy hne
    obtain ⟨z, hz, -, -, hnext⟩ := hcell' _ _ hm
    exact ⟨q, z, hp ▸ hq, hz, by rw [LabelNode.find, hnext, ← hl]; exact hfind⟩
  · intro b x hx
    obtain ⟨y, hy, -⟩ := hcell b x hx
    exact (ht.reach b y hy).mono hext

/-- A leaf is put under a label that is free. -/
theorem addChild (ht : IsTree h root) (hp : h.cell p = some n) (hc : h.cell c = none)
    (hl : n.find l = none) (d : β) : IsTree (addChild h p n l c d) root := by
  have hpc : p ≠ c := by
    rintro rfl
    rw [hp] at hc
    cases hc
  have hself : (LabelTree.addChild h p n l c d).cell p = some (n.addNext l c) := if_pos rfl
  have hleaf : (LabelTree.addChild h p n l c d).cell c = some ⟨l, some p, [], d⟩ := by
    rw [LabelTree.addChild, Heap.cell_set_of_ne hpc.symm, Heap.cell_set_self]
  have hother : ∀ b, b ≠ p → b ≠ c → (LabelTree.addChild h p n l c d).cell b = h.cell b := by
    intro b hbp hbc
    rw [LabelTree.addChild, Heap.cell_set_of_ne hbp, Heap.cell_set_of_ne hbc]
  have hext : ∀ b y, h.cell b = some y →
      ∃ x, (LabelTree.addChild h p n l c d).cell b = some x ∧ Extends y x := by
    intro b y hy
    have hbc : b ≠ c := by
      rintro rfl
      rw [hy] at hc
      cases hc
    by_cases hbp : b = p
    · subst hbp
      obtain rfl := Option.some.inj (hp.symm.trans hy)
      refine ⟨_, hself, rfl, rfl, fun k e he => ?_⟩
      rw [LabelNode.find_addNext, if_neg, he]
      rintro rfl
      rw [hl] at he
      cases he
    · exact ⟨y, (hother b hbp hbc).trans hy, rfl, rfl, fun _ _ he => he⟩
  refine ⟨?_, ?_, ?_, ?_⟩
  · obtain ⟨r, hr, hparent⟩ := ht.rootNode
    obtain ⟨x, hx, -, hxp, -⟩ := hext root r hr
    exact ⟨x, hx, hxp.trans hparent⟩
  · intro b x k e hx he
    have hold : ∀ y, h.cell b = some y → y.find k = some e →
        ∃ m, (LabelTree.addChild h p n l c d).cell e = some m ∧ m.parent = some b ∧
          m.label = k := by
      intro y hy hye
      obtain ⟨m, hm, hmp, hml⟩ := ht.childNode b y k e hy hye
      obtain ⟨m', hm', hl', hp', -⟩ := hext e m hm
      exact ⟨m', hm', hp'.trans hmp, hl'.trans hml⟩
    by_cases hbp : b = p
    · subst hbp
      obtain rfl := Option.some.inj (hself.symm.trans hx)
      rw [LabelNode.find_addNext] at he
      split at he
      next hk =>
        obtain rfl := Option.some.inj he
        exact ⟨_, hleaf, rfl, hk.symm⟩
      · exact hold n hp he
    · by_cases hbc : b = c
      · subst hbc
        obtain rfl := Option.some.inj (hleaf.symm.trans hx)
        cases he
      · exact hold x ((hother b hbp hbc).symm.trans hx) he
  · intro b x hx hne
    have hold : ∀ y, h.cell b = some y → ∃ q m, y.parent = some q ∧
        (LabelTree.addChild h p n l c d).cell q = some m ∧ m.find y.label = some b := by
      intro y hy
      obtain ⟨q, m, hq, hm, hfind⟩ := ht.parentNode b y hy hne
      obtain ⟨m', hm', -, -, hfind'⟩ := hext q m hm
      exact ⟨q, m', hq, hm', hfind' _ _ hfind⟩
    by_cases hbp : b = p
    · subst hbp
      obtain rfl := Option.some.inj (hself.symm.trans hx)
      exact hold n hp
    · by_cases hbc : b = c
      · subst hbc
        obtain rfl := Option.some.inj (hleaf.symm.trans hx)
        exact ⟨p, _, rfl, hself, by rw [LabelNode.find_addNext, if_pos rfl]⟩
      · exact hold x ((hother b hbp hbc).symm.trans hx)
  · intro b x hx
    by_cases hbc : b = c
    · subst hbc
      exact .child ((ht.reach p n hp).mono hext) hself (by rw [LabelNode.find_addNext, if_pos rfl])
    · have hold : ∃ y, h.cell b = some y := by
        by_cases hbp : b = p
        · exact ⟨n, by rw [hbp]; exact hp⟩
        · exact ⟨x, (hother b hbp hbc).symm.trans hx⟩
      obtain ⟨y, hy⟩ := hold
      exact (ht.reach b y hy).mono hext

/-- A leaf is taken away. -/
theorem removeChild (ht : IsTree h root) (hp : h.cell p = some n) (hl : n.find l = some c)
    (hc : h.cell c = some m) (hleaf : m.next = []) : IsTree (removeChild h p n l c) root := by
  have hnone : ∀ k, m.find k = none := fun k => by rw [LabelNode.find, hleaf]; rfl
  have hpc : p ≠ c := by
    rintro rfl
    obtain rfl := Option.some.inj (hp.symm.trans hc)
    rw [hnone] at hl
    cases hl
  have hself : (LabelTree.removeChild h p n l c).cell p = some (n.removeNext l) := if_pos rfl
  have hgone : (LabelTree.removeChild h p n l c).cell c = none := by
    rw [LabelTree.removeChild, Heap.cell_set_of_ne hpc.symm, Heap.cell_erase_self]
  have hother : ∀ b, b ≠ p → b ≠ c → (LabelTree.removeChild h p n l c).cell b = h.cell b := by
    intro b hbp hbc
    rw [LabelTree.removeChild, Heap.cell_set_of_ne hbp, Heap.cell_erase_of_ne hbc]
  -- a cell that is left holds what it held, up to the link that is cut
  have hnew : ∀ b x, (LabelTree.removeChild h p n l c).cell b = some x → ∃ y, h.cell b = some y ∧
      x.label = y.label ∧ x.parent = y.parent ∧
      ∀ k e, x.find k = some e ↔ y.find k = some e ∧ e ≠ c := by
    intro b x hx
    by_cases hbp : b = p
    · subst hbp
      obtain rfl := Option.some.inj (hself.symm.trans hx)
      refine ⟨n, hp, rfl, rfl, fun k e => ?_⟩
      rw [LabelNode.find_removeNext]
      split
      next hk =>
        refine iff_of_false (fun h => nomatch h) fun ⟨he, hne⟩ => hne ?_
        exact Option.some.inj (he.symm.trans (hk ▸ hl))
      next hk =>
        exact (and_iff_left_of_imp fun he hec =>
          hk (ht.child_inj hp hp he (hec ▸ hl)).2).symm
    · have hbc : b ≠ c := by
        rintro rfl
        rw [hgone] at hx
        cases hx
      refine ⟨x, (hother b hbp hbc).symm.trans hx, rfl, rfl, fun k e => ?_⟩
      refine (and_iff_left_of_imp fun he hec => ?_).symm
      exact hbp (ht.child_inj ((hother b hbp hbc).symm.trans hx) hp he (hec ▸ hl)).1
  have hold : ∀ b y, b ≠ c → h.cell b = some y → ∃ x,
      (LabelTree.removeChild h p n l c).cell b = some x ∧ x.label = y.label ∧
      x.parent = y.parent ∧ ∀ k e, x.find k = some e ↔ y.find k = some e ∧ e ≠ c := by
    intro b y hbc hy
    obtain ⟨x, hx⟩ : ∃ x, (LabelTree.removeChild h p n l c).cell b = some x := by
      by_cases hbp : b = p
      · exact ⟨_, by rw [hbp]; exact hself⟩
      · exact ⟨y, (hother b hbp hbc).trans hy⟩
    obtain ⟨y', hy', hrest⟩ := hnew b x hx
    obtain rfl := Option.some.inj (hy.symm.trans hy')
    exact ⟨x, hx, hrest⟩
  have hreach : ∀ b, Reach h root b → b ≠ c → Reach (LabelTree.removeChild h p n l c) root b := by
    intro b hb hbc
    induction hb with
    | root => exact .root
    | @child a e y k _ hy he ih =>
      have hac : a ≠ c := by
        rintro rfl
        obtain rfl := Option.some.inj (hy.symm.trans hc)
        rw [hnone] at he
        cases he
      obtain ⟨x, hx, -, -, hfind⟩ := hold a y hac hy
      exact .child (ih hac) hx ((hfind k e).mpr ⟨he, hbc⟩)
  refine ⟨?_, ?_, ?_, ?_⟩
  · obtain ⟨r, hr, hparent⟩ := ht.rootNode
    obtain ⟨x, hx, -, hxp, -⟩ := hold root r (ht.parent_ne_root hp hl).symm hr
    exact ⟨x, hx, hxp.trans hparent⟩
  · intro b x k e hx he
    obtain ⟨y, hy, -, -, hfind⟩ := hnew b x hx
    obtain ⟨hye, hec⟩ := (hfind k e).mp he
    obtain ⟨z, hz, hzp, hzl⟩ := ht.childNode b y k e hy hye
    obtain ⟨z', hz', hl', hp', -⟩ := hold e z hec hz
    exact ⟨z', hz', hp'.trans hzp, hl'.trans hzl⟩
  · intro b x hx hne
    obtain ⟨y, hy, hlabel, hparent, -⟩ := hnew b x hx
    obtain ⟨q, z, hq, hz, hfind⟩ := ht.parentNode b y hy hne
    have hqc : q ≠ c := by
      rintro rfl
      obtain rfl := Option.some.inj (hz.symm.trans hc)
      rw [hnone] at hfind
      cases hfind
    have hbc : b ≠ c := by
      rintro rfl
      rw [hgone] at hx
      cases hx
    obtain ⟨z', hz', -, -, hfind'⟩ := hold q z hqc hz
    exact ⟨q, z', hparent.trans hq, hz', (hfind' _ _).mpr ⟨hlabel ▸ hfind, hbc⟩⟩
  · intro b x hx
    obtain ⟨y, hy, -⟩ := hnew b x hx
    refine hreach b (ht.reach b y hy) ?_
    rintro rfl
    rw [hgone] at hx
    cases hx

end IsTree

end LabelTree

end FluxCore
