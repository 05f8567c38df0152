import FluxCore.Cache.WrDiskCache
import Mathlib.Algebra.BigOperators.Group.List.Basic
import Mathlib.Data.List.Nodup

/-!
# The accounts of the write disk cache

`Ledger` is what holds between the steps of an operation: the set and the entries agree about the
keys, the sizes add up to `total_`, and every byte that was put in a cache is either there or was
handed to `writeCache` or cleared. Its parameters say what a step in progress owes: the pieces whose
entries are in the set, those whose key is not below their size, and the bytes `total_` has not
heard of yet. `eraseKey` and `insertKey` change these debts (`Ledger.eraseKey`, `Ledger.insertKey`),
an operation is a few of them, and `ensureLimit` pays back what is over the limit: each turn of its
loop empties an entry whose key says that it is not empty, so there are no more turns than entries.
-/

namespace FluxCore.Cache

namespace WrDiskCacheEntry

variable {ent : WrDiskCacheEntry} {goff : Nat} {cell : DataCell}

@[simp] theorem bytes_empty : ({} : WrDiskCacheEntry).bytes = [] := rfl

@[simp] theorem bytes_writeToDisk (b : Bool) : (ent.writeToDisk b).bytes = [] := rfl

@[simp] theorem bytes_clear : ent.clear.bytes = [] := rfl

@[simp] theorem key_writeToDisk (b : Bool) : (ent.writeToDisk b).key = ent.key := rfl

@[simp] theorem key_clear : ent.clear.key = ent.key := rfl

theorem bytes_cons_perm (ent : WrDiskCacheEntry) {set : OrderedMap Nat DataCell}
    (h : ent.set.entries.Perm ((goff, cell) :: set.entries)) :
    ent.bytes.Perm (cell.data.zipIdx goff ++ ({ ent with set }).bytes) := by
  simpa [bytes] using h.flatMap_right fun c => c.2.data.zipIdx c.1

/-- `ent'` is `ent` with the bytes `new`, and under the key of `ent`. -/
structure Stores (ent ent' : WrDiskCacheEntry) (new : List (UInt8 × Nat)) : Prop where
  key : ent'.key = ent.key
  lastUpdate : ent'.lastUpdate = ent.lastUpdate
  size : ent'.size = ent.size + new.length
  bytes : ent'.bytes.Perm (ent.bytes ++ new)

theorem cacheData_stores (cell : DataCell) (h : ent.set.find? goff = none) :
    ∃ ent', ent.cacheData goff cell = some ent' ∧ Stores ent ent' (cell.data.zipIdx goff) := by
  refine ⟨{ ent with set := ent.set.insert goff cell, size := ent.size + cell.len },
    by simp [cacheData, h], rfl, rfl, by simp [DataCell.len], ?_⟩
  have hperm := bytes_cons_perm { ent with set := ent.set.insert goff cell }
    (ent.set.perm_insert goff cell)
  rw [OrderedMap.erase_of_find?_none h] at hperm
  exact hperm.trans List.perm_append_comm

/-- As many bytes as `append` says, behind those of the last cell. -/
theorem append_stores (ent : WrDiskCacheEntry) (goff : Nat) (data : List UInt8) :
    Stores ent (ent.append goff data).2 ((data.take (ent.append goff data).1).zipIdx goff) ∧
      (ent.append goff data).1 ≤ data.length := by
  unfold append
  cases hlast : ent.set.entries.getLast? with
  | none => exact ⟨⟨rfl, rfl, rfl, by simp⟩, Nat.zero_le _⟩
  | some c =>
    obtain ⟨start, cell⟩ := c
    by_cases hend : start + cell.len = goff
    · have hfind : ent.set.find? start = some cell :=
        OrderedMap.find?_eq_some.mpr (List.mem_of_getLast? hlast)
      have hnew := bytes_cons_perm
        { ent with set := ent.set.insert start (DataCell.push cell data) }
        (ent.set.perm_insert start (DataCell.push cell data))
      have hold := bytes_cons_perm ent (OrderedMap.perm_erase hfind)
      have htake : data.take (min (cell.capacity - cell.len) data.length) =
          data.take (cell.capacity - cell.len) := by
        rw [Nat.min_comm, ← List.take_take, List.take_of_length_le]
        simp
      have hdata : (DataCell.push cell data).data.zipIdx start =
          cell.data.zipIdx start ++ (data.take (cell.capacity - cell.len)).zipIdx goff := by
        rw [DataCell.push, List.zipIdx_append, ← hend]
        rfl
      simp only [if_pos hend]
      refine ⟨⟨rfl, rfl, by simp, ?_⟩, Nat.min_le_right ..⟩
      rw [htake]
      rw [hdata, List.append_assoc] at hnew
      refine (hnew.trans ?_).trans (hold.symm.append_right _)
      rw [List.append_assoc]
      exact List.perm_append_comm.append_left _
    · simp only [if_neg hend]
      exact ⟨⟨rfl, rfl, rfl, by simp⟩, Nat.zero_le _⟩

end WrDiskCacheEntry

namespace Session

/-- The bytes that are in a cache. -/
def cached (s : Session) : List Byte :=
  s.wrCache.entries.flatMap fun e => e.2.bytes.map (Prod.mk e.1)

/-- The bytes cached by the entries, as they count them. -/
def sizes (s : Session) : Nat := (s.wrCache.entries.map fun e => e.2.getSize).sum

variable {s : Session} {i : Nat} {ent ent' : WrDiskCacheEntry}

/-- The entry of one piece put in place of another one. -/
theorem setEntry_perm (ent' : WrDiskCacheEntry) (h : s.wrCache.find? i = some ent) :
    (s.setEntry i ent').sizes + ent.size = s.sizes + ent'.size ∧
      (ent.bytes.map (Prod.mk i) ++ (s.setEntry i ent').cached).Perm
        (ent'.bytes.map (Prod.mk i) ++ s.cached) := by
  have hold := OrderedMap.perm_erase h
  have hnew := s.wrCache.perm_insert i ent'
  constructor
  · simp only [sizes, setEntry, WrDiskCacheEntry.getSize, (hnew.map _).sum_eq, (hold.map _).sum_eq,
      List.map_cons, List.sum_cons]
    omega
  · have h1 := hnew.flatMap_right fun e => e.2.bytes.map (Prod.mk e.1)
    have h2 := hold.flatMap_right fun e => e.2.bytes.map (Prod.mk e.1)
    refine (h1.append_left _).trans (.trans ?_ (h2.symm.append_left _))
    simp only [List.flatMap_cons, ← List.append_assoc]
    exact List.perm_append_comm.append_right _

/-- The entry of a piece that has none. -/
theorem setEntry_perm_of_none (ent' : WrDiskCacheEntry) (h : s.wrCache.find? i = none) :
    (s.setEntry i ent').sizes = s.sizes + ent'.size ∧
      (s.setEntry i ent').cached.Perm (ent'.bytes.map (Prod.mk i) ++ s.cached) := by
  have hnew := s.wrCache.perm_insert i ent'
  rw [OrderedMap.erase_of_find?_none h] at hnew
  have h1 := hnew.flatMap_right fun e => e.2.bytes.map (Prod.mk e.1)
  rw [List.flatMap_cons] at h1
  refine ⟨?_, h1⟩
  simp only [sizes, setEntry, WrDiskCacheEntry.getSize, (hnew.map _).sum_eq, List.map_cons,
    List.sum_cons]
  omega

theorem size_le_sizes (h : s.wrCache.find? i = some ent) : ent.size ≤ s.sizes := by
  have := (setEntry_perm {} h).1
  have : ({} : WrDiskCacheEntry).size = 0 := rfl
  omega

/-- The books of the cache. `linked` are the pieces whose entries are in the set, `fitting` those
whose key is not below their size, `delta` is what `total_` has yet to be told. -/
structure Ledger (linked fitting : Nat → Prop) (delta : Int) (s : Session) : Prop where
  mem_set : ∀ k i, (k, i) ∈ s.cache.set.entries ↔
    linked i ∧ ∃ ent, s.wrCache.find? i = some ent ∧ ent.key = k
  lastUpdate_le : ∀ i ent, s.wrCache.find? i = some ent → ent.lastUpdate ≤ s.cache.clock
  size_eq : ∀ i ent, s.wrCache.find? i = some ent → ent.size = ent.bytes.length
  size_le : ∀ i ent, fitting i → s.wrCache.find? i = some ent → ent.size ≤ ent.sizeKey
  total_eq : s.cache.total + delta = s.sizes
  put_perm : s.put.Perm (s.handed ++ (s.cleared ++ s.cached))
  lost_eq : s.lost = []

/-- Nothing is owed. -/
def Balanced (s : Session) : Prop := s.Ledger (fun _ => True) (fun _ => True) 0

theorem Balanced.fit (h : s.Balanced) (i : Nat) : s.Ledger (fun _ => True) (· ≠ i) 0 :=
  { h with size_le := fun j ent _ => h.size_le j ent trivial }

/-- The limit, and what the caches were given, cleared and lost, are the same. -/
structure Frame (s s' : Session) : Prop where
  limit : s'.cache.limit = s.cache.limit
  put : s'.put = s.put
  cleared : s'.cleared = s.cleared
  lost : s'.lost = s.lost

theorem Frame.trans {s s' s'' : Session} (h : Frame s s') (h' : Frame s' s'') : Frame s s'' :=
  ⟨h'.1.trans h.1, h'.2.trans h.2, h'.3.trans h.3, h'.4.trans h.4⟩

variable {fitting : Nat → Prop} {delta : Int}

/-- A pointer that is in the set is found under the key its entry has now. -/
theorem Ledger.eraseKey (h : s.Ledger (fun _ => True) fitting delta)
    (hi : s.wrCache.find? i = some ent) :
    s.cache.set.find? ent.key = some i ∧
      s.eraseKey ent.key = some { s with cache.set := s.cache.set.erase ent.key } ∧
      Ledger (· ≠ i) fitting delta { s with cache.set := s.cache.set.erase ent.key } := by
  have hmem : s.cache.set.find? ent.key = some i :=
    OrderedMap.find?_eq_some.mpr ((h.mem_set ..).mpr ⟨trivial, ent, hi, rfl⟩)
  refine ⟨hmem, by simp [Session.eraseKey, hmem], ?_, h.lastUpdate_le, h.size_eq, h.size_le,
    h.total_eq, h.put_perm, h.lost_eq⟩
  intro k j
  rw [OrderedMap.mem_erase]
  constructor
  · rintro ⟨hj, hne⟩
    obtain ⟨-, ent', hj', rfl⟩ := (h.mem_set ..).mp hj
    refine ⟨?_, ent', hj', rfl⟩
    rintro rfl
    exact hne (by rw [Option.some.inj (hj'.symm.trans hi)])
  · rintro ⟨hne, ent', hj', rfl⟩
    have hj := (h.mem_set ..).mpr ⟨trivial, ent', hj', rfl⟩
    refine ⟨hj, fun heq => hne ?_⟩
    exact congrArg Prod.snd (s.cache.set.eq_of_key_eq hj (OrderedMap.find?_eq_some.mp hmem) heq)

/-- The entry under its new key. -/
def rekeyed (s : Session) (ent : WrDiskCacheEntry) : WrDiskCacheEntry :=
  { ent with sizeKey := ent.size, lastUpdate := s.cache.clock + 1 }

theorem Ledger.insertKey (h : s.Ledger (· ≠ i) (· ≠ i) delta) (hi : s.wrCache.find? i = some ent) :
    ∃ s', s.insertKey i ent = (true, s') ∧ s'.Ledger (fun _ => True) (fun _ => True) delta ∧
      Frame s s' ∧ s'.cache.total = s.cache.total ∧ s'.wrCache.find? i = some (s.rekeyed ent) ∧
      s.cache.set.find? (s.rekeyed ent).key = none ∧
      s'.cache.set = s.cache.set.insert (s.rekeyed ent).key i := by
  have hfresh : s.cache.set.find? (s.rekeyed ent).key = none := by
    refine OrderedMap.find?_eq_none.mpr fun ⟨k, j⟩ hmem => ?_
    rintro rfl
    obtain ⟨-, ent', hj, hkey⟩ := (h.mem_set ..).mp hmem
    have hle := h.lastUpdate_le _ _ hj
    have hclock : ent'.lastUpdate = s.cache.clock + 1 := congrArg (fun k => (ofLex k).2) hkey
    omega
  obtain ⟨hsizes, hcached⟩ := setEntry_perm (s.rekeyed ent) hi
  refine ⟨{ s.setEntry i (s.rekeyed ent) with
      cache.clock := s.cache.clock + 1
      cache.set := s.cache.set.insert (s.rekeyed ent).key i },
    ?_, ⟨?_, ?_, ?_, ?_, ?_, ?_, h.lost_eq⟩, ⟨rfl, rfl, rfl, rfl⟩, rfl,
    OrderedMap.find?_insert_self .., hfresh, rfl⟩
  · unfold Session.insertKey
    simp only [rekeyed] at hfresh
    simp only [WrDiskCacheEntry.getSize, setEntry, hfresh]
    rfl
  · intro k j
    rw [OrderedMap.mem_insert]
    constructor
    · rintro (heq | ⟨hmem, -⟩)
      · cases heq
        exact ⟨trivial, _, OrderedMap.find?_insert_self .., rfl⟩
      · obtain ⟨hne, ent', hj, hkey⟩ := (h.mem_set ..).mp hmem
        exact ⟨trivial, ent', (OrderedMap.find?_insert_of_ne hne _).trans hj, hkey⟩
    · rintro ⟨-, ent', hj, rfl⟩
      rcases OrderedMap.find?_insert_eq_some.mp hj with ⟨rfl, rfl⟩ | ⟨hne, hj⟩
      · exact .inl rfl
      · have hmem := (h.mem_set ..).mpr ⟨hne, ent', hj, rfl⟩
        exact .inr ⟨hmem, OrderedMap.find?_eq_none.mp hfresh _ hmem⟩
  · intro j ent' hj
    rcases OrderedMap.find?_insert_eq_some.mp hj with ⟨rfl, rfl⟩ | ⟨-, hj⟩
    · exact le_rfl
    · exact (h.lastUpdate_le _ _ hj).trans (Nat.le_succ _)
  · intro j ent' hj
    rcases OrderedMap.find?_insert_eq_some.mp hj with ⟨rfl, rfl⟩ | ⟨-, hj⟩
    exacts [(h.size_eq _ _ hi : ent.size = ent.bytes.length), h.size_eq _ _ hj]
  · intro j ent' _ hj
    rcases OrderedMap.find?_insert_eq_some.mp hj with ⟨rfl, rfl⟩ | ⟨hne, hj⟩
    exacts [le_rfl, h.size_le _ _ hne hj]
  · have : (s.rekeyed ent).size = ent.size := rfl
    have htotal := h.total_eq
    change s.cache.total + delta = ((s.setEntry i (s.rekeyed ent)).sizes : Int)
    omega
  · refine h.put_perm.trans (.append_left _ (.append_left _ ?_))
    exact ((List.perm_append_left_iff _).mp hcached).symm

/-- The bytes of an entry handed over or cleared: its cells go away under the same key. -/
theorem Balanced.emptied {s' : Session} (h : s.Balanced) (ent' : WrDiskCacheEntry)
    (hi : s.wrCache.find? i = some ent)
    (hkey : ent'.key = ent.key) (hsize : ent'.size = 0) (hbytes : ent'.bytes = [])
    (hset : s'.cache.set = s.cache.set) (hclock : s'.cache.clock = s.cache.clock)
    (hentry : s'.wrCache = s.wrCache.insert i ent')
    (htotal : s'.cache.total = s.cache.total - ent.size) (hput : s'.put = s.put)
    (hperm : (s'.handed ++ s'.cleared).Perm (s.handed ++ s.cleared ++ ent.bytes.map (Prod.mk i)))
    (hlost : s'.lost = s.lost) : s'.Balanced := by
  obtain ⟨hsizes, hcached⟩ := setEntry_perm ent' hi
  have hlast : ent'.lastUpdate = ent.lastUpdate := congrArg (fun k => (ofLex k).2) hkey
  refine ⟨?_, ?_, ?_, ?_, ?_, ?_, hlost.trans h.lost_eq⟩
  · intro k j
    rw [hset, hentry, h.mem_set]
    refine and_congr_right fun _ => ?_
    by_cases hji : j = i
    · subst hji
      simp [hi, hkey]
    · simp [OrderedMap.find?_insert_eq_some, hji]
  · intro j ent₁ hj
    rw [hentry, OrderedMap.find?_insert_eq_some] at hj
    rw [hclock]
    rcases hj with ⟨rfl, rfl⟩ | ⟨-, hj⟩
    exacts [hlast ▸ h.lastUpdate_le _ _ hi, h.lastUpdate_le _ _ hj]
  · intro j ent₁ hj
    rw [hentry, OrderedMap.find?_insert_eq_some] at hj
    rcases hj with ⟨rfl, rfl⟩ | ⟨-, hj⟩
    exacts [by rw [hsize, hbytes]; rfl, h.size_eq _ _ hj]
  · intro j ent₁ _ hj
    rw [hentry, OrderedMap.find?_insert_eq_some] at hj
    rcases hj with ⟨rfl, rfl⟩ | ⟨-, hj⟩
    exacts [hsize ▸ Nat.zero_le _, h.size_le _ _ trivial hj]
  · have h1 := h.total_eq
    have h2 : s'.sizes = (s.setEntry i ent').sizes := by rw [sizes, hentry]; rfl
    omega
  · have h2 : s'.cached = (s.setEntry i ent').cached := by rw [cached, hentry]; rfl
    rw [hbytes, List.map_nil, List.nil_append] at hcached
    rw [hput, h2, ← List.append_assoc]
    refine (h.put_perm.trans ?_).trans (hperm.symm.append_right _)
    rw [List.append_assoc _ (ent.bytes.map _), ← List.append_assoc]
    exact hcached.symm.append_left _

/-- Bytes stored in the entry of a piece: `total_` has not heard of them. -/
theorem Balanced.stored (h : s.Balanced) (hi : s.wrCache.find? i = some ent)
    {new : List (UInt8 × Nat)} (hnew : ent.Stores ent' new) :
    Ledger (fun _ => True) (· ≠ i) new.length
      { s.setEntry i ent' with put := s.put ++ new.map (Prod.mk i) } := by
  obtain ⟨hsizes, hcached⟩ := setEntry_perm ent' hi
  have hsize := hnew.size
  refine ⟨?_, ?_, ?_, ?_, ?_, ?_, h.lost_eq⟩
  · intro k j
    refine (h.mem_set k j).trans (and_congr_right fun _ => ?_)
    by_cases hji : j = i
    · subst hji
      simp [setEntry, hi, hnew.key]
    · simp [setEntry, OrderedMap.find?_insert_eq_some, hji]
  · intro j ent₁ hj
    rcases OrderedMap.find?_insert_eq_some.mp hj with ⟨rfl, rfl⟩ | ⟨-, hj⟩
    exacts [hnew.lastUpdate ▸ h.lastUpdate_le _ _ hi, h.lastUpdate_le _ _ hj]
  · intro j ent₁ hj
    rcases OrderedMap.find?_insert_eq_some.mp hj with ⟨rfl, rfl⟩ | ⟨-, hj⟩
    · rw [hsize, h.size_eq _ _ hi, hnew.bytes.length_eq, List.length_append]
    · exact h.size_eq _ _ hj
  · intro j ent₁ hne hj
    rcases OrderedMap.find?_insert_eq_some.mp hj with ⟨rfl, rfl⟩ | ⟨-, hj⟩
    exacts [absurd rfl hne, h.size_le _ _ trivial hj]
  · have h1 := h.total_eq
    change s.cache.total + new.length = ((s.setEntry i ent').sizes : Int)
    omega
  · have h1 : (s.setEntry i ent').cached.Perm (new.map (Prod.mk i) ++ s.cached) := by
      have h2 := (hnew.bytes.map (Prod.mk i)).append_right s.cached
      rw [List.map_append, List.append_assoc] at h2
      exact (List.perm_append_left_iff _).mp (hcached.trans h2)
    refine (h.put_perm.append_right _).trans ?_
    change (s.handed ++ (s.cleared ++ s.cached) ++ _).Perm
      (s.handed ++ (s.cleared ++ (s.setEntry i ent').cached))
    rw [List.append_assoc, List.append_assoc]
    exact .append_left _ (.append_left _ (List.perm_append_comm.trans h1.symm))

variable (fails : Nat → Bool)

/-- Whether a key says that its entry holds something. -/
def heavyKey (e : Key × Nat) : Bool := 0 < OrderDual.ofDual (ofLex e.1).1

def heavy (s : Session) : Nat := s.cache.set.entries.countP heavyKey

/-- A key that says so replaced by one that does not. -/
theorem countP_rekey {m : OrderedMap Key Nat} {k k' : Key} (h : m.find? k = some i)
    (hk : 0 < OrderDual.ofDual (ofLex k).1) (hfresh : (m.erase k).find? k' = none)
    (hk' : OrderDual.ofDual (ofLex k').1 = 0) :
    ((m.erase k).insert k' i).entries.countP heavyKey + 1 = m.entries.countP heavyKey := by
  have hold := (OrderedMap.perm_erase h).countP_eq heavyKey
  have hnew := ((m.erase k).perm_insert k' i).countP_eq heavyKey
  rw [List.countP_cons_of_pos (by simpa [heavyKey] using hk)] at hold
  rw [OrderedMap.erase_of_find?_none hfresh,
    List.countP_cons_of_neg (by simp [heavyKey, hk'])] at hnew
  rw [hnew, hold]

theorem heavy_le : s.heavy ≤ s.cache.set.entries.length := List.countP_le_length

/-- Over the limit, the first entry of the set is not empty by its key: none has a larger one. -/
theorem Balanced.exists_head (h : s.Balanced) (hover : s.cache.total > s.cache.limit) :
    ∃ i ent, s.cache.set.entries.head? = some (ent.key, i) ∧ s.wrCache.find? i = some ent ∧
      0 < ent.sizeKey := by
  have hpos : 0 < s.sizes := by
    have := h.total_eq
    omega
  obtain ⟨⟨j, ent'⟩, hj, hsize⟩ : ∃ e ∈ s.wrCache.entries, 0 < e.2.size := by
    by_contra hnone
    push Not at hnone
    refine hpos.ne' (List.sum_eq_zero fun n hn => ?_)
    obtain ⟨e, he, rfl⟩ := List.mem_map.mp hn
    exact Nat.le_zero.mp (hnone e he)
  have hfind := OrderedMap.find?_eq_some.mpr hj
  have hmem := (h.mem_set ..).mpr ⟨trivial, ent', hfind, rfl⟩
  obtain ⟨⟨k, i⟩, es, hentries⟩ := List.exists_cons_of_ne_nil (List.ne_nil_of_mem hmem)
  obtain ⟨-, ent, hi, rfl⟩ := (h.mem_set ..).mp (hentries ▸ List.mem_cons_self (l := es))
  refine ⟨i, ent, by rw [hentries]; rfl, hi, ?_⟩
  have hle : ent.key ≤ ent'.key := OrderedMap.head_key_le hentries hmem
  have hfirst : ent'.sizeKey ≤ ent.sizeKey :=
    OrderDual.toDual_le_toDual.mp (Prod.Lex.monotone_fst _ _ hle)
  exact hsize.trans_le ((h.size_le _ _ trivial hfind).trans hfirst)

/-- One turn of the loop empties the first entry. -/
theorem Balanced.ensureLimitFuel_succ (h : s.Balanced)
    (hover : s.cache.total > s.cache.limit) (fuel : Nat) :
    ∃ s', ensureLimitFuel fails (fuel + 1) s = ensureLimitFuel fails fuel s' ∧ s'.Balanced ∧
      Frame s s' ∧ s'.heavy + 1 = s.heavy := by
  obtain ⟨i, ent, hhead, hi, hpos⟩ := h.exists_head hover
  have hwritten : Balanced
      { s.writeToDisk fails i ent with cache.total := s.cache.total - ent.getSize } :=
    h.emptied (ent.writeToDisk (fails s.writes)) hi rfl rfl rfl rfl rfl rfl rfl rfl
      (by
        change (s.handed ++ ent.bytes.map (Prod.mk i) ++ s.cleared).Perm _
        rw [List.append_assoc, List.append_assoc]
        exact List.perm_append_comm.append_left _) rfl
  have hi' : (s.wrCache.insert i (ent.writeToDisk (fails s.writes))).find? i =
      some (ent.writeToDisk (fails s.writes)) := OrderedMap.find?_insert_self ..
  obtain ⟨hfind, herase, hout⟩ := Ledger.eraseKey (hwritten.fit i) hi'
  obtain ⟨s', hinsert, hs', hframe, -, -, hfresh, hset⟩ := hout.insertKey hi'
  refine ⟨s', ?_, hs', ⟨hframe.1, hframe.2, hframe.3, hframe.4⟩, ?_⟩
  · conv_lhs => unfold ensureLimitFuel
    rw [if_pos hover, hhead]
    simp only [Option.bind_eq_bind, Option.bind_some, hi]
    change ((Session.eraseKey { s.writeToDisk fails i ent with cache.total := _ }
      (ent.writeToDisk (fails s.writes)).key).bind fun s => (s.wrCache.find? i).bind fun ent =>
        ensureLimitFuel fails fuel (s.insertKey i ent).2) = _
    rw [herase]
    exact (congrArg (Option.bind · _) hi').trans
      (congrArg (fun r : Bool × Session => ensureLimitFuel fails fuel r.2) hinsert)
  · rw [heavy, hset]
    exact countP_rekey hfind hpos hfresh rfl

theorem Balanced.ensureLimitFuel (h : s.Balanced) {fuel : Nat} (hfuel : s.heavy ≤ fuel) :
    ∃ s', ensureLimitFuel fails fuel s = some s' ∧ s'.Balanced ∧ Frame s s' ∧
      s'.cache.total ≤ s'.cache.limit := by
  induction fuel generalizing s with
  | zero =>
    have hle : ¬s.cache.total > s.cache.limit := by
      intro hover
      obtain ⟨s', -, -, -, hheavy⟩ := h.ensureLimitFuel_succ fails hover 0
      omega
    exact ⟨s, if_neg hle, h, ⟨rfl, rfl, rfl, rfl⟩, not_lt.mp hle⟩
  | succ fuel ih =>
    by_cases hover : s.cache.total > s.cache.limit
    · obtain ⟨s₁, hturn, h₁, hframe₁, hheavy⟩ := h.ensureLimitFuel_succ fails hover fuel
      obtain ⟨s', hrun, h', hframe, hle⟩ := ih h₁ (by omega)
      exact ⟨s', hturn.trans hrun, h', hframe₁.trans hframe, hle⟩
    · exact ⟨s, if_neg hover, h, ⟨rfl, rfl, rfl, rfl⟩, not_lt.mp hover⟩

/-- `ensureLimit` comes to an end, with the total within the limit. -/
theorem Balanced.ensureLimit (h : s.Balanced) :
    ∃ s', s.ensureLimit fails = some s' ∧ s'.Balanced ∧ Frame s s' ∧
      s'.cache.total ≤ s'.cache.limit := h.ensureLimitFuel fails s.heavy_le

theorem ensureLimit_of_le (h : s.cache.total ≤ s.cache.limit) : s.ensureLimit fails = some s := by
  have hle : ¬s.cache.total > s.cache.limit := not_lt.mpr h
  unfold Session.ensureLimit
  cases s.cache.set.entries.length <;> exact if_neg hle

/-- `update` settles what `total_` had not heard of. -/
theorem Ledger.update (h : s.Ledger (fun _ => True) (· ≠ i) delta)
    (hi : s.wrCache.find? i = some ent) :
    ∃ s', s.update fails i ent delta = some (true, s') ∧ s'.Balanced ∧ Frame s s' ∧
      s'.cache.total ≤ s'.cache.limit := by
  obtain ⟨-, herase, hout⟩ := h.eraseKey hi
  obtain ⟨s₁, hinsert, h₁, hframe, htotal, -, -, -⟩ := hout.insertKey hi
  have hbalanced : Balanced { s₁ with cache.total := s₁.cache.total + delta } :=
    { h₁ with total_eq := (add_zero _).trans h₁.total_eq }
  obtain ⟨s', hrun, h', hframe', hle⟩ := hbalanced.ensureLimit fails
  refine ⟨s', ?_, h', ⟨?_, ?_, ?_, ?_⟩, hle⟩
  · have hassert : ¬(delta < 0 ∧ s₁.cache.total < -delta) := by
      have := h₁.total_eq
      omega
    simp only [Session.update, herase, hinsert, if_neg hassert, hrun]
    rfl
  exacts [hframe'.1.trans hframe.1, hframe'.2.trans hframe.2, hframe'.3.trans hframe.3,
    hframe'.4.trans hframe.4]

/-- `update` tells `total_` that the bytes are gone, before they are. -/
theorem Balanced.update_neg (h : s.Balanced) (hle : s.cache.total ≤ s.cache.limit)
    (hi : s.wrCache.find? i = some ent) :
    ∃ s', s.update fails i ent (-ent.getSize) =
        some (true, { s' with cache.total := s'.cache.total - ent.getSize }) ∧
      s'.Balanced ∧ Frame s s' ∧ s'.cache.total = s.cache.total ∧
      s'.wrCache.find? i = some (s.rekeyed ent) := by
  obtain ⟨-, herase, hout⟩ := (h.fit i).eraseKey hi
  obtain ⟨s', hinsert, h', hframe, htotal, hi', -, -⟩ := hout.insertKey hi
  have hsizes : (ent.getSize : Int) ≤ s.cache.total := by
    have h1 := h.total_eq
    have h2 : ent.getSize ≤ s.sizes := size_le_sizes hi
    omega
  have hle' : s'.cache.total + -ent.getSize ≤ s'.cache.limit := by
    have h1 : s'.cache.limit = s.cache.limit := hframe.limit
    have h2 : s'.cache.total = s.cache.total := htotal
    omega
  refine ⟨s', ?_, h', ⟨hframe.1, hframe.2, hframe.3, hframe.4⟩, htotal, hi'⟩
  have hassert : ¬(-(ent.getSize : Int) < 0 ∧ s'.cache.total < - -(ent.getSize : Int)) := by
    have h2 : s'.cache.total = s.cache.total := htotal
    omega
  have hrun := ensureLimit_of_le fails
    (s := { s' with cache.total := s'.cache.total + -ent.getSize }) hle'
  simp only [Session.update, herase, hinsert, if_neg hassert, hrun]
  rfl

/-! ## The operations -/

/-- Between two operations nothing is owed, and the total is within the limit. -/
structure Settled (s : Session) : Prop where
  balanced : s.Balanced
  total_le : s.cache.total ≤ s.cache.limit

/-- What an operation leaves: only `clearWrCache` clears, and the limit stays. -/
structure After (op : Op) (s s' : Session) : Prop where
  settled : s'.Settled
  limit : s'.cache.limit = s.cache.limit
  cleared : ∀ b ∈ s'.cleared, b ∈ s.cleared ∨ op = .clearWrCache b.1

theorem After.of_frame {op : Op} {s s' : Session} (h : s'.Balanced)
    (hle : s'.cache.total ≤ s'.cache.limit) (hlimit : s'.cache.limit = s.cache.limit)
    (hcleared : s'.cleared = s.cleared) : After op s s' :=
  ⟨⟨h, hle⟩, hlimit, fun _ hb => .inl (hcleared ▸ hb)⟩

theorem Settled.initWrCache (h : s.Settled) (hi : s.wrCache.find? i = none) :
    ∃ s', s.initWrCache fails i = some s' ∧ After (.initWrCache i) s s' := by
  obtain ⟨hsizes, hcached⟩ := setEntry_perm_of_none {} hi
  have hb := h.balanced
  have hout : (s.setEntry i {}).Ledger (· ≠ i) (· ≠ i) 0 := by
    refine ⟨?_, ?_, ?_, ?_, ?_, hb.put_perm.trans (.append_left _ (.append_left _ hcached.symm)),
      hb.lost_eq⟩
    · intro k j
      rw [show (s.setEntry i {}).cache = s.cache from rfl, hb.mem_set]
      by_cases hji : j = i
      · subst hji
        simp [hi]
      · simp [setEntry, hji, OrderedMap.find?_insert_eq_some]
    · intro j ent₁ hj
      rcases OrderedMap.find?_insert_eq_some.mp hj with ⟨rfl, rfl⟩ | ⟨-, hj⟩
      exacts [Nat.zero_le _, hb.lastUpdate_le _ _ hj]
    · intro j ent₁ hj
      rcases OrderedMap.find?_insert_eq_some.mp hj with ⟨rfl, rfl⟩ | ⟨-, hj⟩
      exacts [rfl, hb.size_eq _ _ hj]
    · intro j ent₁ hne hj
      rcases OrderedMap.find?_insert_eq_some.mp hj with ⟨rfl, rfl⟩ | ⟨-, hj⟩
      exacts [absurd rfl hne, hb.size_le _ _ trivial hj]
    · have h1 := hb.total_eq
      have h2 : ({} : WrDiskCacheEntry).size = 0 := rfl
      change s.cache.total + 0 = ((s.setEntry i {}).sizes : Int)
      omega
  obtain ⟨s₁, hinsert, h₁, hframe, htotal, -, -, -⟩ :=
    hout.insertKey (OrderedMap.find?_insert_self ..)
  obtain ⟨s', hrun, h', hframe', hle⟩ := Balanced.ensureLimit fails h₁
  refine ⟨s', ?_, .of_frame h' hle (hframe'.limit.trans hframe.limit)
    (hframe'.cleared.trans hframe.cleared)⟩
  have hzero : { s₁ with cache.total := s₁.cache.total + (WrDiskCacheEntry.getSize {} : Nat) } =
      s₁ := by
    simp [WrDiskCacheEntry.getSize]
  simp only [Session.initWrCache, hi, add, hinsert, hzero, hrun]
  rfl

theorem Settled.updateWrCache (h : s.Settled) {goff : Nat} {cell : DataCell}
    (hi : s.wrCache.find? i = some ent) (hgoff : ent.set.find? goff = none) :
    ∃ s', s.updateWrCache fails i goff cell = some s' ∧
      After (.updateWrCache i goff cell) s s' := by
  obtain ⟨ent', hdata, hstores⟩ := WrDiskCacheEntry.cacheData_stores cell hgoff
  have hledger := h.balanced.stored hi hstores
  rw [List.length_zipIdx] at hledger
  obtain ⟨s', hrun, h', hframe, hle⟩ := hledger.update fails
    (OrderedMap.find?_insert_self ..)
  refine ⟨s', ?_, .of_frame h' hle hframe.limit hframe.cleared⟩
  simp only [Session.updateWrCache, hi, hdata, Option.bind_eq_bind, Option.bind_some]
  rw [show cell.len = cell.data.length from rfl, hrun]
  rfl

theorem Settled.appendWrCache (h : s.Settled) (goff : Nat) (data : List UInt8)
    (hi : s.wrCache.find? i = some ent) :
    ∃ n s', s.appendWrCache fails i goff data = some (n, s') ∧
      After (.appendWrCache i goff data) s s' := by
  obtain ⟨hstores, hle⟩ := ent.append_stores goff data
  have hledger := h.balanced.stored hi hstores
  rw [List.length_zipIdx, List.length_take, Nat.min_eq_left hle] at hledger
  unfold Session.appendWrCache
  simp only [hi, Option.bind_eq_bind, Option.bind_some]
  by_cases hpos : 0 < (ent.append goff data).1
  · obtain ⟨s', hrun, h', hframe, hle⟩ := hledger.update fails
      (OrderedMap.find?_insert_self ..)
    refine ⟨(ent.append goff data).1, s', ?_, .of_frame h' hle hframe.limit hframe.cleared⟩
    rw [if_pos hpos, hrun]
    rfl
  · have hzero : (ent.append goff data).1 = 0 := by omega
    rw [hzero] at hledger
    rw [if_neg hpos, hzero]
    refine ⟨_, _, rfl, .of_frame ?_ h.total_le rfl rfl⟩
    have hsize := hstores.size
    have hentry := h.balanced.size_le _ _ trivial hi
    have hkey : (ent.append goff data).2.sizeKey = ent.sizeKey :=
      congrArg (fun k : Key => OrderDual.ofDual (ofLex k).1) hstores.key
    rw [hzero] at hsize
    refine { hledger with size_le := fun j ent₁ _ hj => ?_ }
    rcases OrderedMap.find?_insert_eq_some.mp hj with ⟨rfl, rfl⟩ | ⟨-, hj⟩
    · simp only [List.take_zero, List.zipIdx_nil, List.length_nil] at hsize
      omega
    · exact h.balanced.size_le _ _ trivial hj

theorem Settled.flushWrCache (h : s.Settled) (hi : s.wrCache.find? i = some ent) :
    ∃ s', s.flushWrCache fails i = some s' ∧ After (.flushWrCache i) s s' := by
  obtain ⟨s₁, hrun, h₁, hframe, htotal, hi₁⟩ := h.balanced.update_neg fails h.total_le hi
  have h' : Balanced
      (writeToDisk fails { s₁ with cache.total := s₁.cache.total - ent.getSize } i
        (s.rekeyed ent)) :=
    h₁.emptied ((s.rekeyed ent).writeToDisk (fails s₁.writes)) hi₁ rfl rfl rfl rfl rfl rfl
      rfl rfl
      (by
        change (s₁.handed ++ (s.rekeyed ent).bytes.map (Prod.mk i) ++ s₁.cleared).Perm _
        rw [List.append_assoc, List.append_assoc]
        exact List.perm_append_comm.append_left _) rfl
  refine ⟨_, ?_, .of_frame h' ?_ hframe.limit hframe.cleared⟩
  · simp only [Session.flushWrCache, hi, hrun, Option.bind_eq_bind, Option.bind_some, hi₁]
  · have hle := h.total_le
    have hlimit := hframe.limit
    change s₁.cache.total - ent.getSize ≤ s₁.cache.limit
    omega

theorem Settled.clearWrCache (h : s.Settled) (hi : s.wrCache.find? i = some ent) :
    ∃ s', s.clearWrCache fails i = some s' ∧ After (.clearWrCache i) s s' := by
  obtain ⟨s₁, hrun, h₁, hframe, htotal, hi₁⟩ := h.balanced.update_neg fails h.total_le hi
  have h' : Balanced
      { setEntry { s₁ with cache.total := s₁.cache.total - ent.getSize } i
          (s.rekeyed ent).clear with
        cleared := s₁.cleared ++ (s.rekeyed ent).bytes.map (Prod.mk i) } :=
    h₁.emptied (s.rekeyed ent).clear hi₁ rfl rfl rfl rfl rfl rfl rfl rfl
      (by rw [List.append_assoc]; rfl) rfl
  refine ⟨_, ?_, ⟨h', ?_⟩, hframe.limit, ?_⟩
  · simp only [Session.clearWrCache, hi, hrun, Option.bind_eq_bind, Option.bind_some, hi₁]
  · have hle := h.total_le
    have hlimit := hframe.limit
    change s₁.cache.total - ent.getSize ≤ s₁.cache.limit
    omega
  · intro b hb
    rcases List.mem_append.mp hb with hb | hb
    · exact .inl (hframe.cleared ▸ hb)
    · obtain ⟨-, -, rfl⟩ := List.mem_map.mp hb
      exact .inr rfl

theorem Settled.releaseWrCache (h : s.Settled)
    (hi : ∀ ent, s.wrCache.find? i = some ent → ent.bytes = []) :
    After (.releaseWrCache i) s (s.releaseWrCache i) := by
  unfold Session.releaseWrCache
  cases hfind : s.wrCache.find? i with
  | none => exact .of_frame h.balanced h.total_le rfl rfl
  | some ent =>
    obtain ⟨-, herase, hout⟩ := (h.balanced.fit i).eraseKey hfind
    have hbytes := hi ent hfind
    have hsize : ent.size = 0 := by rw [h.balanced.size_eq _ _ hfind, hbytes]; rfl
    have hperm := OrderedMap.perm_erase hfind
    simp only [remove, herase, hbytes, List.map_nil, List.append_nil]
    have hfind' : ∀ {j ent₁}, (s.wrCache.erase i).find? j = some ent₁ →
        j ≠ i ∧ s.wrCache.find? j = some ent₁ := by
      intro j ent₁ hj
      have hmem := OrderedMap.mem_erase.mp (OrderedMap.find?_eq_some.mp hj)
      exact ⟨hmem.2, OrderedMap.find?_eq_some.mpr hmem.1⟩
    have hgetSize : ent.getSize = 0 := hsize
    refine .of_frame ⟨?_, fun j e hj => hout.lastUpdate_le j e (hfind' hj).2,
      fun j e hj => hout.size_eq j e (hfind' hj).2,
      fun j e _ hj => hout.size_le j e (hfind' hj).1 (hfind' hj).2, ?_, ?_, hout.lost_eq⟩
      ?_ rfl rfl
    · intro k j
      refine (hout.mem_set k j).trans ?_
      constructor
      · rintro ⟨hne, e, hj, rfl⟩
        exact ⟨trivial, e, (OrderedMap.find?_erase_of_ne hne).trans hj, rfl⟩
      · rintro ⟨-, e, hj, rfl⟩
        exact ⟨(hfind' hj).1, e, (hfind' hj).2, rfl⟩
    · have h1 := h.balanced.total_eq
      have h2 := (hperm.map fun e => e.2.getSize).sum_eq
      simp only [List.map_cons, List.sum_cons, hgetSize, zero_add] at h2
      simp only [hgetSize, sizes] at h1 ⊢
      omega
    · have h1 := hperm.flatMap_right fun e => e.2.bytes.map (Prod.mk e.1)
      simp only [List.flatMap_cons, hbytes, List.map_nil, List.nil_append] at h1
      exact h.balanced.put_perm.trans (.append_left _ (.append_left _ h1))
    · have := h.total_le
      simp only [hgetSize]
      omega

end Session

/-! ## Runs -/

/-- What the callers promise: an entry is made for a piece that has none, is used where there is
one, no two cells are for one place, and an entry is released when its bytes have been flushed or
cleared. -/
def Allowed (s : Session) : Op → Prop
  | .initWrCache i => s.wrCache.find? i = none
  | .updateWrCache i goff _ => ∃ ent, s.wrCache.find? i = some ent ∧ ent.set.find? goff = none
  | .appendWrCache i _ _ | .flushWrCache i | .clearWrCache i => ∃ ent, s.wrCache.find? i = some ent
  | .releaseWrCache i => ∀ ent, s.wrCache.find? i = some ent → ent.bytes = []

instance (s : Session) : ∀ op, Decidable (Allowed s op)
  | .initWrCache i => inferInstanceAs (Decidable (s.wrCache.find? i = none))
  | .updateWrCache i goff _ =>
    inferInstanceAs (Decidable (∃ ent ∈ s.wrCache.find? i, ent.set.find? goff = none))
  | .appendWrCache i _ _ | .flushWrCache i | .clearWrCache i =>
    decidable_of_iff _ (Option.isSome_iff_exists (x := s.wrCache.find? i))
  | .releaseWrCache i =>
    inferInstanceAs (Decidable (∀ ent ∈ s.wrCache.find? i, ent.bytes = []))

variable {fails : Nat → Bool} {s : Session}

theorem Session.Settled.run (h : s.Settled) {op : Op} (hop : Allowed s op) :
    ∃ s', s.run fails op = some s' ∧ s.After op s' := by
  cases op with
  | initWrCache i => exact h.initWrCache fails hop
  | updateWrCache i goff cell =>
    obtain ⟨ent, hi, hgoff⟩ := hop
    exact h.updateWrCache fails hi hgoff
  | appendWrCache i goff data =>
    obtain ⟨ent, hi⟩ := hop
    obtain ⟨n, s', hrun, hafter⟩ := h.appendWrCache fails goff data hi
    exact ⟨s', by rw [Session.run, hrun]; rfl, hafter⟩
  | flushWrCache i => exact h.flushWrCache fails hop.choose_spec
  | clearWrCache i => exact h.clearWrCache fails hop.choose_spec
  | releaseWrCache i => exact ⟨_, rfl, h.releaseWrCache hop⟩

/-- `getSize()` of the entry that a pointer of the set leads to. -/
def Session.sizeOf (s : Session) (i : Nat) : Nat :=
  (s.wrCache.find? i).elim 0 WrDiskCacheEntry.getSize

/-- The cache keeps its books: its set has each live entry under the key it has now and nothing
else, `total_` is the sum of their sizes and within the limit, and each byte that was put in a cache
was handed to `writeCache` or cleared, or is cached; none has gone with its entry. -/
structure Kept (limit : Nat) (s : Session) : Prop where
  mem_set : ∀ k i, (k, i) ∈ s.cache.set.entries ↔
    ∃ ent, s.wrCache.find? i = some ent ∧ ent.key = k
  total_eq : s.cache.total = ((s.cache.set.entries.map fun e => s.sizeOf e.2).sum : Nat)
  size_eq : ∀ i ent, s.wrCache.find? i = some ent → ent.getSize = ent.bytes.length
  limit_eq : s.cache.limit = limit
  total_le : s.cache.total ≤ limit
  put_perm : s.put.Perm (s.handed ++ (s.cleared ++ s.cached))
  removed : ∀ i, s.wrCache.find? i = none →
    (s.put.filter (·.1 = i)).Perm ((s.handed ++ s.cleared).filter (·.1 = i))
  lost_eq : s.lost = []

namespace Session

/-- The set and the table of the entries have the same pieces. -/
theorem Balanced.sum_sizeOf (h : s.Balanced) :
    (s.cache.set.entries.map fun e => s.sizeOf e.2).sum = s.sizes := by
  have hperm : (s.cache.set.entries.map Prod.swap).Perm
      (s.wrCache.entries.map fun e => (e.1, e.2.key)) := by
    have hnodup : (s.wrCache.entries.map fun e => (e.1, e.2.key)).Nodup :=
      s.wrCache.sorted.map _ fun _ _ hlt heq => hlt.ne (Prod.mk.inj heq).1
    refine (List.perm_ext_iff_of_nodup
      (List.Nodup.map Prod.swap_injective s.cache.set.nodup) hnodup).mpr ?_
    rintro ⟨j, k⟩
    simp only [List.mem_map, Prod.exists, Prod.swap_prod_mk, Prod.mk.injEq]
    constructor
    · rintro ⟨k, i, hmem, rfl, rfl⟩
      obtain ⟨-, ent, hi, rfl⟩ := (h.mem_set ..).mp hmem
      exact ⟨i, ent, OrderedMap.find?_eq_some.mp hi, rfl, rfl⟩
    · rintro ⟨i, ent, hmem, rfl, rfl⟩
      exact ⟨_, i, (h.mem_set ..).mpr ⟨trivial, ent, OrderedMap.find?_eq_some.mpr hmem, rfl⟩,
        rfl, rfl⟩
  have hsum := (hperm.map fun e => s.sizeOf e.1).sum_eq
  rw [List.map_map, List.map_map] at hsum
  refine hsum.trans (congrArg List.sum (List.map_congr_left fun e he => ?_))
  simp [sizeOf, OrderedMap.find?_eq_some.mpr he]

theorem Settled.kept (h : s.Settled) : Kept s.cache.limit s where
  mem_set k i := (h.balanced.mem_set k i).trans (and_iff_right trivial)
  total_eq := by
    rw [h.balanced.sum_sizeOf]
    simpa using h.balanced.total_eq
  size_eq := h.balanced.size_eq
  limit_eq := rfl
  total_le := h.total_le
  put_perm := h.balanced.put_perm
  removed i hi := by
    have hcached : s.cached.filter (·.1 = i) = [] := by
      refine List.filter_eq_nil_iff.mpr fun b hb => ?_
      obtain ⟨e, he, hb⟩ := List.mem_flatMap.mp hb
      obtain ⟨-, -, rfl⟩ := List.mem_map.mp hb
      simpa using OrderedMap.find?_eq_none.mp hi e he
    have hperm := h.balanced.put_perm.filter (·.1 = i)
    rwa [← List.append_assoc, List.filter_append, hcached, List.append_nil] at hperm
  lost_eq := h.balanced.lost_eq

end Session

/-- A run from a settled state: every operation goes through, and only pieces that `clearWrCache`
was called for have bytes cleared. -/
theorem Session.Settled.exec (h : s.Settled) {ops : List Op}
    (hops : Along (step fails) (fun o op => ∀ s ∈ o, Allowed s op) (some s) ops) :
    Visits (step fails) (fun o => ∃ s' ∈ o, Kept s.cache.limit s') (some s) ops ∧
      ∃ s' ∈ FluxCore.exec (step fails) (some s) ops,
        ∀ b ∈ s'.cleared, b ∈ s.cleared ∨ .clearWrCache b.1 ∈ ops := by
  induction ops generalizing s with
  | nil => exact ⟨⟨s, rfl, h.kept⟩, s, rfl, fun b hb => .inl hb⟩
  | cons op ops ih =>
    obtain ⟨s', hrun, hafter⟩ := h.run (hops.1 s rfl)
    have hstep : step fails (some s) op = some s' := hrun
    have htail := hops.2
    rw [hstep] at htail
    obtain ⟨hvisits, s'', hs'', hcleared⟩ := ih hafter.settled htail
    rw [hafter.limit] at hvisits
    refine ⟨⟨⟨s, rfl, h.kept⟩, hstep ▸ hvisits⟩, s'', by
      rwa [FluxCore.exec, hstep], fun b hb => ?_⟩
    rcases hcleared b hb with hb | hb
    · rcases hafter.cleared b hb with hb | rfl
      · exact .inl hb
      · exact .inr (List.mem_cons_self ..)
    · exact .inr (List.mem_cons_of_mem _ hb)

end FluxCore.Cache
