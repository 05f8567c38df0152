import FluxCore.Cookies.CookieStorage
import FluxCore.Lib.Run
import Mathlib.Algebra.BigOperators.Group.Finset.Basic

/-!
# The structure of the cookie store

The tracked nodes are those that say so, and among them are all that hold cookies. A node is
destroyed only when it holds nothing and has no children. The one cookie that upsets the store is
one whose domain has no label: it goes to the root, which has no parent to be cut off from.
-/

namespace FluxCore.Cookies

open Utp (Bytes)
open Heap (Malloc)
open LabelTree (IsTree Reach)

variable {isNumericHost : Bytes → Bool} {s s' : CookieStorage} {a p : Nat} {n : DomainNode}
  {d : DomainData} {t now : Int}

namespace CookieStorage

/-- The node in the cell `a` is tracked under the time `t`. -/
def Tracks (s : CookieStorage) (t : Int) (a : Nat) : Prop :=
  (toLex (t, a), ()) ∈ s.lruTracker.entries

end CookieStorage

/-- The invariant of the store. -/
structure Inv (s : CookieStorage) : Prop where
  tree : IsTree s.heap s.rootNode
  tracks : ∀ t a, s.Tracks t a ↔
    ∃ n, s.heap.cell a = some n ∧ n.data.inLru = true ∧ n.data.lruAccessTime = t
  cookies : ∀ a n, s.heap.cell a = some n → ∀ l ∈ n.data.cookies,
    Bounded l ∧ (l ≠ [] → n.data.inLru = true)
  held : ∀ a n, s.heap.cell a = some n → n.data.inLru = true → n.data.cookies ≠ none
  root : ∀ n, s.heap.cell s.rootNode = some n → n.data.inLru = false ∧ n.data.cookies = none
  destroyed : ∀ n ∈ s.destroyed, n.data.empty = true ∧ n.next = []

namespace Inv

/-- The data of one node and its tracking change. -/
theorem update (h : Inv s) (ha : s.heap.cell a = some n) {lru : OrderedMap (Int ×ₗ Nat) Unit}
    (hlru : ∀ t b, (toLex (t, b), ()) ∈ lru.entries ↔
      if b = a then d.inLru = true ∧ d.lruAccessTime = t else s.Tracks t b)
    (hcookies : ∀ l ∈ d.cookies, Bounded l ∧ (l ≠ [] → d.inLru = true))
    (hheld : d.inLru = true → d.cookies ≠ none)
    (hroot : a = s.rootNode → d.inLru = false ∧ d.cookies = none) :
    Inv { s.setData a n d with lruTracker := lru } := by
  have hcell : ∀ b m, (s.setData a n d).heap.cell b = some m →
      b = a ∧ m.data = d ∨ b ≠ a ∧ s.heap.cell b = some m := by
    intro b m hm
    rw [CookieStorage.setData, LabelTree.setData, Heap.cell_set] at hm
    split at hm
    next hb => exact .inl ⟨hb, by cases hm; rfl⟩
    next hb => exact .inr ⟨hb, hm⟩
  refine ⟨h.tree.setData ha d, fun t b => ?_, fun b m hm => ?_, fun b m hm => ?_, fun m hm => ?_,
    h.destroyed⟩
  · rw [CookieStorage.Tracks, hlru]
    split
    next hb =>
      subst hb
      constructor
      · exact fun hd => ⟨_, Heap.cell_set_self, hd⟩
      · rintro ⟨m, hm, hd⟩
        rcases hcell b m hm with ⟨-, hmd⟩ | ⟨hne, -⟩
        exacts [hmd ▸ hd, absurd rfl hne]
    next hb =>
      rw [h.tracks]
      refine exists_congr fun m => and_congr_left fun _ => ?_
      exact (iff_of_eq (congrArg (· = some m) (Heap.cell_set_of_ne hb))).symm
  · rcases hcell b m hm with ⟨-, hmd⟩ | ⟨-, hm⟩
    exacts [hmd ▸ hcookies, h.cookies b m hm]
  · rcases hcell b m hm with ⟨-, hmd⟩ | ⟨-, hm⟩
    exacts [hmd ▸ hheld, h.held b m hm]
  · rcases hcell _ m hm with ⟨hr, hmd⟩ | ⟨-, hm⟩
    exacts [hmd ▸ hroot hr.symm, h.root m hm]

/-- A node is tracked under one time at most. -/
theorem tracks_iff (h : Inv s) (ha : s.heap.cell a = some n) :
    s.Tracks t a ↔ n.data.inLru = true ∧ n.data.lruAccessTime = t := by
  rw [h.tracks]
  constructor
  · rintro ⟨m, hm, hdata⟩
    exact Option.some.inj (ha.symm.trans hm) ▸ hdata
  · exact fun hdata => ⟨n, ha, hdata⟩

/-- What is left without the entry of a node. -/
theorem mem_erase (h : Inv s) (ha : s.heap.cell a = some n) (b : Nat) :
    (toLex (t, b), ()) ∈
        (if n.data.inLru then s.lruTracker.erase (toLex (n.data.lruAccessTime, a))
          else s.lruTracker).entries ↔ b ≠ a ∧ s.Tracks t b := by
  by_cases hb : b = a
  · subst hb
    rw [ne_eq, eq_self, not_true_eq_false, false_and, iff_false]
    split
    next hin =>
      intro hmem
      obtain ⟨hmem, hne⟩ := OrderedMap.mem_erase.mp hmem
      exact hne (by rw [((h.tracks_iff ha).mp hmem).2])
    next hin => exact fun hmem => hin ((h.tracks_iff ha).mp hmem).1
  · rw [and_iff_right hb]
    split
    · rw [OrderedMap.mem_erase]
      exact and_iff_left fun heq => hb (Prod.ext_iff.mp (toLex_inj.mp heq)).2
    · rfl

theorem untrack (h : Inv s) (ha : s.heap.cell a = some n) (hne : a ≠ s.rootNode)
    (hin : n.data.inLru = true) (hempty : ∀ l ∈ n.data.cookies, l = []) :
    Inv (s.untrack a n) := by
  refine h.update ha (fun t b => ?_) (fun l hl => ⟨(h.cookies a n ha l hl).1, fun hne => ?_⟩)
    (fun hf => nomatch hf) (fun hr => absurd hr hne)
  · have hmem := h.mem_erase ha b (t := t)
    rw [if_pos hin] at hmem
    rw [hmem]
    split
    next hb => exact iff_of_false (fun hc => hc.1 hb) (fun hf => nomatch hf.1)
    next hb => exact and_iff_right hb
  · exact absurd (hempty l hl) hne

/-- A node gets new cookies and is tracked. -/
theorem track (h : Inv s) (ha : s.heap.cell a = some n) (hne : a ≠ s.rootNode)
    (hbounded : ∀ l ∈ d.cookies, Bounded l) (hheld : d.cookies ≠ none) (now : Int) :
    Inv { s.setData a n { d with inLru := true, lruAccessTime := now } with
      lruTracker :=
        (if n.data.inLru then s.lruTracker.erase (toLex (n.data.lruAccessTime, a))
          else s.lruTracker).insert (toLex (now, a)) () } := by
  refine h.update ha (fun t b => ?_) (fun l hl => ⟨hbounded l hl, fun _ => rfl⟩) (fun _ => hheld)
    (fun hr => absurd hr hne)
  rw [OrderedMap.mem_insert]
  have hmem := h.mem_erase ha b (t := t)
  by_cases hb : b = a
  · subst hb
    rw [if_pos rfl]
    constructor
    · rintro (heq | ⟨hold, -⟩)
      · exact ⟨rfl, (Prod.ext_iff.mp (toLex_inj.mp (congrArg Prod.fst heq))).1.symm⟩
      · exact absurd rfl (hmem.mp hold).1
    · rintro ⟨-, rfl⟩
      exact .inl rfl
  · rw [if_neg hb]
    constructor
    · rintro (heq | ⟨hold, -⟩)
      · exact absurd (Prod.ext_iff.mp (toLex_inj.mp (congrArg Prod.fst heq))).2 hb
      · exact (hmem.mp hold).2
    · exact fun ht => .inr ⟨hmem.mpr ⟨hb, ht⟩, fun heq =>
        hb (Prod.ext_iff.mp (toLex_inj.mp heq)).2⟩

theorem updateLru (h : Inv s) (ha : s.heap.cell a = some n) (hne : a ≠ s.rootNode)
    (hheld : n.data.cookies ≠ none) (now : Int) : Inv (s.updateLru a n now) :=
  h.track ha hne (fun l hl => (h.cookies a n ha l hl).1) hheld now

/-- A change of the data that leaves the tracking alone. -/
theorem setData (h : Inv s) (ha : s.heap.cell a = some n) (hin : d.inLru = n.data.inLru)
    (htime : d.lruAccessTime = n.data.lruAccessTime)
    (hcookies : ∀ l ∈ d.cookies, Bounded l ∧ (l ≠ [] → n.data.inLru = true))
    (hheld : n.data.inLru = true → d.cookies ≠ none)
    (hroot : a = s.rootNode → d.cookies = none) : Inv (s.setData a n d) := by
  refine h.update ha (fun t b => ?_) (hin ▸ hcookies) (hin ▸ hheld) fun hr =>
    ⟨hin.trans (h.root n (hr ▸ ha)).1, hroot hr⟩
  split
  next hb => rw [hin, htime, ← h.tracks_iff ha, hb]; rfl
  · rfl

theorem addChild (h : Inv s) (ha : s.heap.cell a = some n) {l : Bytes} (hl : n.find l = none)
    {c : Nat} (hc : s.heap.cell c = none) :
    Inv { s with heap := LabelTree.addChild s.heap a n l c {} } := by
  refine ⟨h.tree.addChild ha hc hl {}, fun t b => ?_, fun b m hm => ?_, fun b m hm => ?_,
    fun m hm => ?_, h.destroyed⟩
  · change s.Tracks t b ↔ _
    rw [h.tracks]
    constructor
    · rintro ⟨m, hm, hdata⟩
      obtain ⟨m', hm', hd⟩ := LabelTree.exists_addChild ha hc hm {}
      exact ⟨m', hm', hd ▸ hdata⟩
    · rintro ⟨m, hm, hdata⟩
      rcases LabelTree.of_addChild ha hm with ⟨-, hd⟩ | ⟨m', hm', hd⟩
      · rw [hd] at hdata
        exact nomatch hdata.1
      · exact ⟨m', hm', hd ▸ hdata⟩
  · rcases LabelTree.of_addChild ha hm with ⟨-, hd⟩ | ⟨m', hm', hd⟩
    · rw [hd]
      exact fun l hl => nomatch hl
    · exact hd ▸ h.cookies b m' hm'
  · rcases LabelTree.of_addChild ha hm with ⟨-, hd⟩ | ⟨m', hm', hd⟩
    · rw [hd]
      exact fun hf => nomatch hf
    · exact hd ▸ h.held b m' hm'
  · rcases LabelTree.of_addChild ha hm with ⟨-, hd⟩ | ⟨m', hm', hd⟩
    · rw [hd]
      exact ⟨rfl, rfl⟩
    · exact hd ▸ h.root m' hm'

theorem removeChild (h : Inv s) {parent : DomainNode} (hp : s.heap.cell p = some parent)
    {l : Bytes} (hl : parent.find l = some a) (ha : s.heap.cell a = some n) (hleaf : n.next = [])
    (hempty : n.data.empty = true) (hin : n.data.inLru = false) :
    Inv { s with
      heap := LabelTree.removeChild s.heap p parent l a
      destroyed := n :: s.destroyed } := by
  refine ⟨h.tree.removeChild hp hl ha hleaf, fun t b => ?_, fun b m hm => ?_, fun b m hm => ?_,
    fun m hm => ?_, List.forall_mem_cons.mpr ⟨⟨hempty, hleaf⟩, h.destroyed⟩⟩
  · change s.Tracks t b ↔ _
    rw [h.tracks]
    constructor
    · rintro ⟨m, hm, hdata⟩
      have hba : b ≠ a := by
        rintro rfl
        obtain rfl := Option.some.inj (ha.symm.trans hm)
        rw [hin] at hdata
        exact nomatch hdata.1
      obtain ⟨m', hm', hd⟩ := LabelTree.exists_removeChild hp hba hm
      exact ⟨m', hm', hd ▸ hdata⟩
    · rintro ⟨m, hm, hdata⟩
      obtain ⟨m', hm', hd⟩ := LabelTree.of_removeChild hp hm
      exact ⟨m', hm', hd ▸ hdata⟩
  · obtain ⟨m', hm', hd⟩ := LabelTree.of_removeChild hp hm
    exact hd ▸ h.cookies b m' hm'
  · obtain ⟨m', hm', hd⟩ := LabelTree.of_removeChild hp hm
    exact hd ▸ h.held b m' hm'
  · obtain ⟨m', hm', hd⟩ := LabelTree.of_removeChild hp hm
    exact hd ▸ h.root m' hm'

end Inv

theorem deref_of_cell (ha : s.heap.cell a = some n) : s.deref a = .ok n := by
  rw [CookieStorage.deref, ha]

theorem empty_iff {d : DomainData} : d.empty = true ↔ ∀ l ∈ d.cookies, l = [] := by
  cases hd : d.cookies <;> simp [DomainData.empty, hd]

/-! ## Eviction -/

/-- The branch that is left empty is cut off, and the loop comes to its end before the root. -/
theorem evictUpwards_ok {fuel : Nat} (h : Inv s) (ha : s.heap.cell a = some n)
    (hne : a ≠ s.rootNode) (hin : n.data.inLru = false) (hfuel : s.heap.live.card ≤ fuel) :
    ∃ s', CookieStorage.evictUpwards fuel s a = .ok s' ∧ Inv s' := by
  induction fuel generalizing s a n with
  | zero =>
    have hmem : a ∈ s.heap.live := Heap.mem_live.mpr ⟨n, ha⟩
    exact absurd (Finset.card_pos.mpr ⟨a, hmem⟩) (Nat.not_lt.mpr hfuel)
  | succ fuel ih =>
    rw [CookieStorage.evictUpwards, deref_of_cell ha]
    dsimp only
    split
    next hcut =>
      obtain ⟨hempty, hnext⟩ := Bool.and_eq_true_iff.mp hcut
      have hleaf : n.next = [] := by simpa [DomainNode.hasNext] using hnext
      obtain ⟨p, parent, hparent, hp, hfind⟩ := h.tree.parentNode a n ha hne
      rw [hparent]
      dsimp only
      rw [deref_of_cell hp]
      dsimp only
      have hinv := h.removeChild hp hfind ha hleaf hempty hin
      have hpa : p ≠ a := by
        rintro rfl
        obtain rfl := Option.some.inj (hp.symm.trans ha)
        rw [LabelNode.find, hleaf] at hfind
        cases hfind
      rw [CookieStorage.removeNode, hfind]
      dsimp only
      rw [ha]
      dsimp only
      have hcell : (LabelTree.removeChild s.heap p parent n.label a).cell p =
          some (parent.removeNext n.label) := Heap.cell_set_self
      rw [deref_of_cell hcell]
      dsimp only
      split
      · exact ⟨_, rfl, hinv⟩
      next hup =>
        simp only [Bool.or_eq_true, Bool.not_eq_true', decide_eq_true_eq, not_or,
          Bool.not_eq_false] at hup
        obtain ⟨⟨hpempty, -⟩, hproot⟩ := hup
        have hcard : (s.heap.live.erase a).card ≤ fuel := by
          rw [Finset.card_erase_of_mem (Heap.mem_live.mpr ⟨n, ha⟩)]
          omega
        rw [← LabelTree.live_removeChild (l := n.label) hp hpa] at hcard
        split
        next hpin =>
          have hmem : p ∈ (LabelTree.removeChild s.heap p parent n.label a).live :=
            Heap.mem_live.mpr ⟨_, hcell⟩
          refine ih (hinv.untrack hcell hproot hpin (empty_iff.mp hpempty)) Heap.cell_set_self
            hproot rfl ?_
          exact (congrArg Finset.card (Heap.live_set_of_mem hmem)).trans_le hcard
        next hpin => exact ih hinv hcell hproot (Bool.eq_false_iff.mpr hpin) hcard
    · exact ⟨s, rfl, h⟩

theorem evictFirst_ok (h : Inv s) {e : (Int ×ₗ Nat) × Unit} {es : List ((Int ×ₗ Nat) × Unit)}
    (hentries : s.lruTracker.entries = e :: es) :
    ∃ s', s.evictFirst (ofLex e.1).2 = .ok s' ∧ Inv s' := by
  obtain ⟨n, ha, hin, htime⟩ := (h.tracks (ofLex e.1).1 (ofLex e.1).2).mp (by
    rw [CookieStorage.Tracks, hentries]
    exact List.mem_cons_self ..)
  have hne : (ofLex e.1).2 ≠ s.rootNode := by
    intro heq
    rw [(h.root n (heq ▸ ha)).1] at hin
    cases hin
  rw [CookieStorage.evictFirst, deref_of_cell ha]
  dsimp only
  split
  next hnone => exact absurd hnone (h.held _ n ha hin)
  · refine evictUpwards_ok (a := (ofLex e.1).2) (h.update ha (fun t b => ?_) ?_ (fun hf => nomatch hf)
      fun hr => absurd hr hne) Heap.cell_set_self hne rfl le_rfl
    · have hmem := h.mem_erase ha b (t := t)
      rw [if_pos hin, htime] at hmem
      rw [OrderedMap.tail_eq_erase hentries]
      refine hmem.trans ?_
      split
      next hb => exact iff_of_false (fun hc => hc.1 hb) (fun hf => nomatch hf.1)
      next hb => exact and_iff_right hb
    · rintro l ⟨⟩
      exact ⟨⟨Nat.zero_le _, List.nodup_nil⟩, fun hf => absurd rfl hf⟩

/-- Eviction comes to an end, and leaves the store as it should be. -/
theorem evictNode_ok {delnum : Nat} (h : Inv s) :
    ∃ s', s.evictNode delnum = .ok s' ∧ Inv s' := by
  induction delnum generalizing s with
  | zero => exact ⟨s, rfl, h⟩
  | succ delnum ih =>
    rw [CookieStorage.evictNode]
    split
    · exact ⟨s, rfl, h⟩
    next e hhead =>
      obtain ⟨es, hentries⟩ := List.head?_eq_some_iff.mp hhead
      obtain ⟨s', hs', hinv⟩ := evictFirst_ok h hentries
      rw [hs']
      exact ih hinv

/-! ## Storing -/

theorem findOrAdd_ok (malloc : Malloc DomainNode) (ls : List Bytes) (h : Inv s)
    (ha : s.heap.cell a = some n) :
    ∃ s' a' n', CookieStorage.findOrAdd malloc ls s a = .ok (s', a') ∧ Inv s' ∧
      s'.heap.cell a' = some n' ∧ s'.rootNode = s.rootNode ∧ (ls ≠ [] → a' ≠ s.rootNode) := by
  induction ls generalizing s a n with
  | nil => exact ⟨s, a, n, rfl, h, ha, rfl, fun hf => absurd rfl hf⟩
  | cons l ls ih =>
    -- the node that is found or made is not the root, and further down nothing is
    have hdown : ∀ s₁ c m, Inv s₁ → s₁.heap.cell c = some m → s₁.rootNode = s.rootNode →
        c ≠ s.rootNode → ∃ s' a' n', CookieStorage.findOrAdd malloc ls s₁ c = .ok (s', a') ∧
          Inv s' ∧ s'.heap.cell a' = some n' ∧ s'.rootNode = s.rootNode ∧
          (l :: ls ≠ [] → a' ≠ s.rootNode) := by
      intro s₁ c m h₁ hc hroot hne
      obtain ⟨s', a', n', hs', hinv, ha', hr, hne'⟩ := ih h₁ hc
      refine ⟨s', a', n', hs', hinv, ha', hr.trans hroot, fun _ => ?_⟩
      cases ls with
      | nil =>
        cases hs'
        exact hne
      | cons => exact hroot ▸ hne' (List.cons_ne_nil _ _)
    rw [CookieStorage.findOrAdd, deref_of_cell ha]
    dsimp only
    split
    next c hfind =>
      obtain ⟨m, hm, -⟩ := h.tree.childNode a n l c ha hfind
      exact hdown s c m h hm rfl (h.tree.parent_ne_root ha hfind)
    next hfind =>
      have hfree := malloc.cell_alloc s.heap
      have hinv := h.addChild ha hfind hfree
      obtain ⟨m, hm, -⟩ := h.tree.rootNode
      have hne : malloc.alloc s.heap ≠ s.rootNode := by
        intro heq
        rw [heq, hm] at hfree
        cases hfree
      have hac : malloc.alloc s.heap ≠ a := by
        intro heq
        rw [heq, ha] at hfree
        cases hfree
      refine hdown _ _ ⟨l, some a, [], {}⟩ hinv ?_ rfl hne
      rw [LabelTree.addChild, Heap.cell_set_of_ne hac, Heap.cell_set_self]

theorem setData_updateLru (now : Int) :
    (s.setData a n d).updateLru a { n with data := d } now =
      { s.setData a n { d with inLru := true, lruAccessTime := now } with
        lruTracker :=
          (if d.inLru then s.lruTracker.erase (toLex (d.lruAccessTime, a))
            else s.lruTracker).insert (toLex (now, a)) () } := by
  simp only [CookieStorage.updateLru, CookieStorage.setData, LabelTree.setData, Heap.set_set]

/-- The node `n` after `addCookie`. -/
def withCookie (n : DomainNode) (cookie : Cookie) (now : Int) : DomainNode :=
  { n with data := { n.data with
      lastAccessTime := now
      cookies := (addCookie n.data.cookies cookie now).2 } }

/-- A cookie that is not stored changes no tracking. -/
theorem Inv.reject (h : Inv s) (ha : s.heap.cell a = some n) {cookie : Cookie}
    (hok : (addCookie n.data.cookies cookie now).1 = false) :
    Inv (s.setData a (withCookie n cookie now) (withCookie n cookie now).data) := by
  have hbounded := Bounded.addCookie (fun l hl => (h.cookies a n ha l hl).1) cookie now
  have hsub : ∀ l ∈ (addCookie n.data.cookies cookie now).2, ∃ l' ∈ n.data.cookies,
      l.Sublist l' := by
    rcases addCookie_cases n.data.cookies cookie now with ⟨htrue, -⟩ | ⟨-, hsub⟩
    exacts [absurd htrue (by rw [hok]; exact Bool.false_ne_true), hsub]
  have hset : Inv (s.setData a n (withCookie n cookie now).data) := by
    refine h.setData ha rfl rfl (fun l hl => ⟨hbounded l hl, fun hne => ?_⟩)
      (fun hin => addCookie_ne_none (h.held a n ha hin) cookie now) (fun hr => ?_)
    · obtain ⟨l', hl', hsub⟩ := hsub l hl
      refine (h.cookies a n ha l' hl').2 ?_
      rintro rfl
      exact hne (List.sublist_nil.mp hsub)
    · refine Option.eq_none_iff_forall_not_mem.mpr fun l hl => ?_
      obtain ⟨l', hl', -⟩ := hsub l hl
      rw [(h.root n (hr ▸ ha)).2] at hl'
      cases hl'
  exact hset

/-- A cookie that is stored away from the root. -/
theorem Inv.accept (h : Inv s) (ha : s.heap.cell a = some n) (hne : a ≠ s.rootNode)
    {cookie : Cookie} (hok : (addCookie n.data.cookies cookie now).1 = true) :
    Inv ((s.setData a (withCookie n cookie now) (withCookie n cookie now).data).updateLru a
      (withCookie n cookie now) now) := by
  have hbounded := Bounded.addCookie (fun l hl => (h.cookies a n ha l hl).1) cookie now
  have hheld : (addCookie n.data.cookies cookie now).2 ≠ none := by
    rcases addCookie_cases n.data.cookies cookie now with ⟨-, l, hl⟩ | ⟨hfalse, -⟩
    · rw [hl]
      exact Option.some_ne_none l
    · exact absurd (hok.symm.trans hfalse) Bool.true_eq_false.mp
  have htrack := h.track (d := (withCookie n cookie now).data) ha hne hbounded hheld now
  have heq : (s.setData a (withCookie n cookie now) (withCookie n cookie now).data).updateLru a
      (withCookie n cookie now) now = _ := setData_updateLru (n := n) now
  rw [heq]
  exact htrack

/-- The cookie has a label, or does not stay. -/
def Labelled (isNumericHost : Bytes → Bool) (cookie : Cookie) (now : Int) : Prop :=
  CookieStorage.splitDomainLabel isNumericHost cookie.domain ≠ [] ∨ cookie.isExpired now = true

instance (isNumericHost : Bytes → Bool) (cookie : Cookie) (now : Int) :
    Decidable (Labelled isNumericHost cookie now) :=
  inferInstanceAs (Decidable (_ ∨ _))

theorem store_ok (h : Inv s) (isNumericHost : Bytes → Bool) (cookie : Cookie) (now : Int)
    (malloc : Malloc DomainNode) :
    ∃ ok s', s.store isNumericHost cookie now malloc = .ok (ok, s') ∧
      (Labelled isNumericHost cookie now → Inv s') ∧
      (¬Labelled isNumericHost cookie now → s'.Tracks now s'.rootNode) := by
  obtain ⟨s₁, hs₁, h₁⟩ : ∃ s₁, (if CookieStorage.DOMAIN_EVICTION_TRIGGER ≤
      s.lruTracker.entries.length then s.evictNode (Binary64.trunc (Binary64.round
        (s.lruTracker.entries.length * CookieStorage.DOMAIN_EVICTION_RATE))).toNat else .ok s) =
      .ok s₁ ∧ Inv s₁ := by
    split
    · exact evictNode_ok h
    · exact ⟨s, rfl, h⟩
  obtain ⟨r, hr, -⟩ := h₁.tree.rootNode
  obtain ⟨s₂, a, n, hs₂, h₂, ha, hroot, hne⟩ :=
    findOrAdd_ok malloc (CookieStorage.splitDomainLabel isNumericHost cookie.domain).reverse h₁ hr
  have hstore : s.store isNumericHost cookie now malloc =
      .ok ((addCookie n.data.cookies cookie now).1,
        if (addCookie n.data.cookies cookie now).1 then
          (s₂.setData a (withCookie n cookie now) (withCookie n cookie now).data).updateLru a
            (withCookie n cookie now) now
        else s₂.setData a (withCookie n cookie now) (withCookie n cookie now).data) := by
    rw [CookieStorage.store]
    dsimp only
    rw [hs₁]
    dsimp only
    rw [hs₂]
    dsimp only
    rw [deref_of_cell ha]
    rfl
  refine ⟨_, _, hstore, fun hl => ?_, fun hl => ?_⟩
  · split
    next hok =>
      refine h₂.accept ha (fun heq => ?_) hok
      have hlabels : CookieStorage.splitDomainLabel isNumericHost cookie.domain = [] := by
        by_contra hlabels
        exact hne (mt List.reverse_eq_nil_iff.mp hlabels) (heq.trans hroot)
      have hexpired := hl.resolve_left (not_not_intro hlabels)
      rw [(h₂.root n (heq ▸ ha)).2, addCookie, if_pos hexpired] at hok
      cases hok
    next hok => exact h₂.reject ha (Bool.eq_false_iff.mpr hok)
  · rw [Labelled, not_or, not_not] at hl
    obtain ⟨hlabels, hexpired⟩ := hl
    rw [hlabels] at hs₂
    cases hs₂
    have hok : (addCookie n.data.cookies cookie now).1 = true := by
      rw [(h₂.root n ha).2, addCookie, if_neg hexpired]
    rw [if_pos hok]
    exact OrderedMap.mem_insert.mpr (.inl rfl)

/-! ## Finding -/

theorem access_ok (h : Inv s) (ha : s.heap.cell a = some n) (hne : a ≠ s.rootNode) (now : Int) :
    ∃ m, Inv (s.access a n now) ∧ (s.access a n now).heap.cell a = some m := by
  have h₁ : Inv (s.setData a n { n.data with lastAccessTime := now }) :=
    h.setData ha rfl rfl (h.cookies a n ha) (h.held a n ha) fun hr => absurd hr hne
  unfold CookieStorage.access
  dsimp only
  split
  next hin =>
    exact ⟨_, h₁.updateLru Heap.cell_set_self hne (h.held a n ha hin) now, Heap.cell_set_self⟩
  · exact ⟨_, h₁, Heap.cell_set_self⟩

@[simp] theorem rootNode_access : (s.access a n now).rootNode = s.rootNode := by
  unfold CookieStorage.access
  dsimp only
  split <;> rfl

theorem findDownwards_ok (isNumericHost : Bytes → Bool) (requestHost requestPath : Bytes)
    (now : Int) (secure : Bool) (ls : List Bytes) (res : List Cookie) (h : Inv s)
    (ha : s.heap.cell a = some n) :
    ∃ res' s', CookieStorage.findDownwards isNumericHost requestHost requestPath now secure ls s a
      res = .ok (res', s') ∧ Inv s' := by
  induction ls generalizing s a n res with
  | nil => exact ⟨res, s, rfl, h⟩
  | cons l ls ih =>
    rw [CookieStorage.findDownwards, deref_of_cell ha]
    dsimp only
    split
    · exact ⟨res, s, rfl, h⟩
    next c hfind =>
      obtain ⟨m, hm, -⟩ := h.tree.childNode a n l c ha hfind
      have hne := h.tree.parent_ne_root ha hfind
      rw [deref_of_cell hm]
      dsimp only
      obtain ⟨m₂, h₂, hm₂⟩ := access_ok h hm hne now
      rw [deref_of_cell hm₂]
      dsimp only
      split
      · exact ih res h₂ hm₂
      next cookies hcookies =>
        have hold := h₂.cookies c m₂ hm₂ cookies hcookies
        have h₃ := h₂.setData hm₂ (d := { m₂.data with cookies := some (findCookie isNumericHost
          cookies requestHost requestPath now secure).2 }) rfl rfl (by
            rintro _ ⟨⟩
            refine ⟨hold.1.findCookie .., fun hf => hold.2 ?_⟩
            rintro rfl
            exact hf rfl) (fun _ => Option.some_ne_none _) fun hr =>
          absurd (hr.trans rootNode_access) hne
        exact ih _ h₃ Heap.cell_set_self

theorem criteriaFind_ok (h : Inv s) (isNumericHost : Bytes → Bool) (requestHost requestPath : Bytes)
    (now : Int) (secure : Bool) :
    ∃ res s', s.criteriaFind isNumericHost requestHost requestPath now secure = .ok (res, s') ∧
      Inv s' := by
  rw [CookieStorage.criteriaFind]
  split
  · exact ⟨[], s, rfl, h⟩
  · obtain ⟨r, hr, -⟩ := h.tree.rootNode
    obtain ⟨res, s', hs', hinv⟩ := findDownwards_ok isNumericHost requestHost requestPath now secure
      (CookieStorage.splitDomainLabel isNumericHost requestHost).reverse [] h hr
    rw [hs']
    exact ⟨_, s', rfl, hinv⟩

/-! ## Runs -/

/-- The tracked nodes are those that say so, each under its time; they are below the root, and are
all that hold cookies. What is counted and saved are all cookies. Only what is empty is destroyed.
-/
structure Structured (s : CookieStorage) : Prop where
  tree : IsTree s.heap s.rootNode
  tracks : ∀ t a, s.Tracks t a ↔
    ∃ n, s.heap.cell a = some n ∧ n.data.inLru = true ∧ n.data.lruAccessTime = t
  reachable : ∀ t a, s.Tracks t a → Reach s.heap s.rootNode a ∧ a ≠ s.rootNode
  once : s.tracked.Nodup
  holders : ∀ a, s.cookiesAt a ≠ [] → a ∈ s.tracked
  bounded : ∀ a, Bounded (s.cookiesAt a)
  size : s.size = ∑ a ∈ s.heap.live, (s.cookiesAt a).length
  saved : ∀ a, ∀ c ∈ s.cookiesAt a, c.toNsCookieFormat ++ [0x0a] <:+: s.saveNsFormat
  destroyed : ∀ n ∈ s.destroyed, n.data.empty = true ∧ n.next = []

/-- The store is as it should be, and came to its end without a fault. -/
def Sound : Except Fault CookieStorage → Prop
  | .ok s => Structured s
  | .error _ => False

/-- There was no fault, and the invariant holds. -/
def Kept (r : Except Fault CookieStorage) : Prop := ∃ s, r = .ok s ∧ Inv s

/-- A cookie that is stored has a label, or does not stay. -/
def LabelledStep (isNumericHost : Bytes → Bool) (_ : Except Fault CookieStorage) : Event → Prop
  | .store cookie now _ => Labelled isNumericHost cookie now
  | .criteriaFind .. => True

theorem mem_tracked : a ∈ s.tracked ↔ ∃ t, s.Tracks t a := by
  rw [CookieStorage.tracked, List.mem_map]
  constructor
  · rintro ⟨e, he, rfl⟩
    exact ⟨(ofLex e.1).1, he⟩
  · rintro ⟨t, ht⟩
    exact ⟨_, ht, rfl⟩

theorem infix_flatMap {α β : Type*} {x : α} {xs : List α} (h : x ∈ xs) (f : α → List β) :
    f x <:+: xs.flatMap f := by
  obtain ⟨l, r, rfl⟩ := List.append_of_mem h
  exact ⟨l.flatMap f, r.flatMap f, by simp⟩

theorem Inv.structured (h : Inv s) : Structured s := by
  have hat : ∀ a, s.cookiesAt a ≠ [] → ∃ n, s.heap.cell a = some n ∧
      n.data.cookies = some (s.cookiesAt a) := by
    intro a ha
    rw [CookieStorage.cookiesAt] at ha ⊢
    cases hn : s.heap.cell a with
    | none => rw [hn] at ha; exact absurd rfl ha
    | some n =>
      cases hc : n.data.cookies with
      | none => rw [hn, Option.bind_some, hc] at ha; exact absurd rfl ha
      | some l => exact ⟨n, rfl, by rw [Option.bind_some, hc]; rfl⟩
  have hreach : ∀ t a, s.Tracks t a → Reach s.heap s.rootNode a ∧ a ≠ s.rootNode := by
    intro t a ht
    obtain ⟨n, ha, hin, -⟩ := (h.tracks t a).mp ht
    refine ⟨h.tree.reach a n ha, ?_⟩
    rintro rfl
    rw [(h.root n ha).1] at hin
    cases hin
  have hholders : ∀ a, s.cookiesAt a ≠ [] → a ∈ s.tracked := by
    intro a ha
    obtain ⟨n, hn, hc⟩ := hat a ha
    exact mem_tracked.mpr ⟨_, (h.tracks_iff hn).mpr ⟨(h.cookies a n hn _ hc).2 ha, rfl⟩⟩
  have honce : s.tracked.Nodup := by
    refine s.lruTracker.nodup.map_on fun e he e' he' heq => ?_
    obtain ⟨n, ha, -, ht⟩ := (h.tracks (ofLex e.1).1 (ofLex e.1).2).mp he
    have ht' := (h.tracks_iff (t := (ofLex e'.1).1) (heq ▸ ha : s.heap.cell (ofLex e'.1).2 = _)).mp he'
    exact Prod.ext (ofLex_inj.mp (Prod.ext (ht.symm.trans ht'.2) heq)) rfl
  refine ⟨h.tree, h.tracks, hreach, honce, hholders, fun a => ?_, ?_, fun a c hc => ?_, h.destroyed⟩
  · by_cases ha : s.cookiesAt a = []
    · rw [ha]
      exact ⟨Nat.zero_le _, List.nodup_nil⟩
    · obtain ⟨n, hn, hc⟩ := hat a ha
      exact (h.cookies a n hn _ hc).1
  · rw [CookieStorage.size, ← List.sum_toFinset _ honce]
    refine Finset.sum_subset (fun a ha => ?_) fun a _ ha => ?_
    · obtain ⟨t, ht⟩ := mem_tracked.mp (List.mem_toFinset.mp ha)
      obtain ⟨n, hn, -⟩ := (h.tracks t a).mp ht
      exact Heap.mem_live.mpr ⟨n, hn⟩
    · rw [List.length_eq_zero_iff]
      by_contra hne
      exact ha (List.mem_toFinset.mpr (hholders a hne))
  · have ha := hholders a (List.ne_nil_of_mem hc)
    rw [CookieStorage.saveNsFormat]
    have hline := infix_flatMap hc fun c => c.toNsCookieFormat ++ [0x0a]
    exact hline.trans (infix_flatMap ha fun a =>
      (s.cookiesAt a).flatMap fun c => c.toNsCookieFormat ++ [0x0a])

theorem inv_new (malloc : Malloc DomainNode) : Inv (.new malloc) := by
  have hcell : ∀ a n, (CookieStorage.new malloc).heap.cell a = some n →
      a = (CookieStorage.new malloc).rootNode ∧ n = ⟨[], none, [], {}⟩ := by
    intro a n ha
    rw [CookieStorage.new, Heap.cell_set] at ha
    split at ha
    next heq => exact ⟨heq, by cases ha; rfl⟩
    · cases ha
  refine ⟨⟨⟨_, Heap.cell_set_self, rfl⟩, fun a n l c ha hc => ?_, fun a n ha hne => ?_,
    fun a n ha => ?_⟩, fun t a => ?_, fun a n ha => ?_, fun a n ha => ?_, fun n ha => ?_, ?_⟩
  · rw [(hcell a n ha).2] at hc
    cases hc
  · exact absurd (hcell a n ha).1 hne
  · rw [(hcell a n ha).1]
    exact .root
  · refine iff_of_false List.not_mem_nil ?_
    rintro ⟨n, ha, hin, -⟩
    rw [(hcell a n ha).2] at hin
    cases hin
  · rw [(hcell a n ha).2]
    exact fun l hl => nomatch hl
  · rw [(hcell a n ha).2]
    exact fun hf => nomatch hf
  · rw [(hcell _ n ha).2]
    exact ⟨rfl, rfl⟩
  · exact fun n hn => nomatch hn

/-- The store stays as it should be along exactly the runs in which every cookie has a label, or
does not stay. -/
theorem structured_iff_labelled (isNumericHost : Bytes → Bool) (malloc : Malloc DomainNode)
    (es : List Event) :
    Visits (step isNumericHost) Sound (.ok (.new malloc)) es ↔
      Along (step isNumericHost) (LabelledStep isNumericHost) (.ok (.new malloc)) es := by
  have hstart : Kept (.ok (.new malloc)) := ⟨_, rfl, inv_new malloc⟩
  refine visits_iff_along (P := fun _ _ => True) ?_ ?_ ?_ hstart (.of_forall fun _ _ => trivial)
  · rintro _ e ⟨s, rfl, h⟩ - hlabelled
    cases e with
    | store cookie now malloc =>
      obtain ⟨ok, s', hs', hgood, -⟩ := store_ok h isNumericHost cookie now malloc
      exact ⟨s', by rw [step, hs']; rfl, hgood hlabelled⟩
    | criteriaFind requestHost requestPath now secure =>
      obtain ⟨res, s', hs', h'⟩ :=
        criteriaFind_ok h isNumericHost requestHost requestPath now secure
      exact ⟨s', by rw [step, hs']; rfl, h'⟩
  · rintro _ ⟨s, rfl, h⟩
    exact h.structured
  · rintro _ e ⟨s, rfl, h⟩ - hlabelled hsound
    cases e with
    | store cookie now malloc =>
      obtain ⟨ok, s', hs', -, hbad⟩ := store_ok h isNumericHost cookie now malloc
      rw [step, hs'] at hsound
      exact (Structured.reachable hsound now _ (hbad hlabelled)).2 rfl
    | criteriaFind => exact hlabelled trivial

/-- A session cookie for the host `"."`. -/
def rootCookie : Cookie where
  expiryTime := 2 ^ 63 - 1
  creationTime := 100
  lastAccessTime := 100
  name := [0x61]
  value := [0x62]
  domain := [period]
  path := [slash]
  persistent := false
  hostOnly := true
  secure := false
  httpOnly := false

theorem root_holds_cookie :
    ¬Visits (step fun _ => false) Sound (.ok (.new default)) [.store rootCookie 100 default] := by
  intro h
  obtain ⟨ok, s, hs, -, hbad⟩ :=
    store_ok (inv_new default) (fun _ => false) rootCookie 100 default
  have hsound : Sound (step (fun _ => false) (.ok (.new default)) (.store rootCookie 100 default)) :=
    h.last
  rw [step, hs] at hsound
  exact (Structured.reachable hsound 100 _ (hbad (by decide))).2 rfl

end FluxCore.Cookies
