import FluxCore.Lib.OrderedMap
import FluxCore.Lib.Run
import Mathlib.Data.Prod.Lex
import Mathlib.Order.OrderDual
import Mathlib.Order.Nat
import Mathlib.Algebra.GroupWithZero.Nat

/-!
# The write disk cache

`WrDiskCacheEntry.cc`, `WrDiskCache.cc` and the functions of `Piece.cc` that use them. The cache is
a set of pointers to the entries, ordered by two fields of the entry (`sizeKey`, `lastUpdate`) that
change while the entry is in it. A pointer is the number of the piece that owns the entry, and the
set is a map from the key that an entry had when it was inserted to that number: an `erase` looks
for the key which the entry has now, and finds nothing where the two have come apart.

An operation gives no state where an assertion of the source fails, where a pointer leads nowhere,
and where the loop of `ensureLimit` is still running after as many turns as there are entries. The
sizes are unbounded integers, so that a `total_` which would wrap below zero is negative here.
-/

namespace FluxCore.Cache

/-- Cached bytes for one place on disk; the place (`goff`) is the key of the cell in its entry. -/
structure DataCell where
  data : List UInt8
  capacity : Nat
  fits : data.length ≤ capacity
  deriving DecidableEq

def DataCell.len (cell : DataCell) : Nat := cell.data.length

/-- The order of the entries: large ones first, then the least recently used. -/
abbrev Key := Natᵒᵈ ×ₗ Nat

structure WrDiskCacheEntry where
  sizeKey : Nat := 0
  lastUpdate : Nat := 0
  size : Nat := 0
  set : OrderedMap Nat DataCell := .empty
  error : Bool := false
  deriving DecidableEq

namespace WrDiskCacheEntry

variable (ent : WrDiskCacheEntry)

/-- What the set compares. -/
def key : Key := toLex (OrderDual.toDual ent.sizeKey, ent.lastUpdate)

def getSize : Nat := ent.size

def deleteDataCells : WrDiskCacheEntry := { ent with set := .empty, size := 0 }

/-- `fails` is whether `DiskAdaptor::writeCache` throws. -/
def writeToDisk (fails : Bool) : WrDiskCacheEntry :=
  { ent.deleteDataCells with error := ent.error || fails }

def clear : WrDiskCacheEntry := ent.deleteDataCells

/-- Refused where there is a cell for the place already. -/
def cacheData (goff : Nat) (cell : DataCell) : Option WrDiskCacheEntry :=
  match ent.set.find? goff with
  | some _ => none
  | none => some { ent with set := ent.set.insert goff cell, size := ent.size + cell.len }

/-- The cell with as many of the bytes behind its own as it has room for. -/
def DataCell.push (cell : DataCell) (data : List UInt8) : DataCell where
  data := cell.data ++ data.take (cell.capacity - cell.len)
  capacity := cell.capacity
  fits := by
    have := cell.fits
    simp only [List.length_append, List.length_take, DataCell.len]
    omega

/-- The number of bytes copied behind those of the last cell, and the entry with them. -/
def append (goff : Nat) (data : List UInt8) : Nat × WrDiskCacheEntry :=
  match ent.set.entries.getLast? with
  | none => (0, ent)
  | some (start, cell) =>
    if start + cell.len = goff then
      let wlen := min (cell.capacity - cell.len) data.length
      (wlen, { ent with
        set := ent.set.insert start (DataCell.push cell data), size := ent.size + wlen })
    else (0, ent)

/-- The cached bytes with their offsets, in the order in which `writeCache` meets them. -/
def bytes : List (UInt8 × Nat) := ent.set.entries.flatMap fun c => c.2.data.zipIdx c.1

end WrDiskCacheEntry

structure WrDiskCache where
  limit : Nat
  total : Int := 0
  clock : Nat := 0
  set : OrderedMap Key Nat := .empty
  deriving DecidableEq

/-- A byte of a piece, with its value and its offset on disk. -/
abbrev Byte := Nat × UInt8 × Nat

/-- The cache, the entries of the pieces that have one, the number of calls of `writeCache` so far,
and what has happened to the bytes: `put` in a cache, `handed` to `writeCache`, `cleared` by
`clearWrCache`, `lost` with an entry that went away. -/
structure Session where
  cache : WrDiskCache
  wrCache : OrderedMap Nat WrDiskCacheEntry := .empty
  writes : Nat := 0
  put : List Byte := []
  handed : List Byte := []
  cleared : List Byte := []
  lost : List Byte := []
  deriving DecidableEq

namespace Session

variable (fails : Nat → Bool) (s : Session) (i : Nat)

/-- A cache of `limit` bytes and no piece. -/
def new (limit : Nat) : Session where
  cache := { limit }

def setEntry (ent : WrDiskCacheEntry) : Session := { s with wrCache := s.wrCache.insert i ent }

/-- `WrDiskCacheEntry::writeToDisk` of the entry of `i`. -/
def writeToDisk (ent : WrDiskCacheEntry) : Session :=
  { s.setEntry i (ent.writeToDisk (fails s.writes)) with
    writes := s.writes + 1
    handed := s.handed ++ ent.bytes.map (Prod.mk i) }

/-- `set_.erase(ent)`: whether the entry was found, and the set without it. -/
def eraseKey (k : Key) : Option Session :=
  (s.cache.set.find? k).map fun _ => { s with cache.set := s.cache.set.erase k }

/-- The entry gets its key from its size and the clock. `set_.insert(ent)` says whether there was no
entry with that key. -/
def insertKey (ent : WrDiskCacheEntry) : Bool × Session :=
  let clock := s.cache.clock + 1
  let ent := { ent with sizeKey := ent.getSize, lastUpdate := clock }
  let s := { s.setEntry i ent with cache.clock := clock }
  match s.cache.set.find? ent.key with
  | some _ => (false, s)
  | none => (true, { s with cache.set := s.cache.set.insert ent.key i })

/-- `ensureLimit`, for at most `fuel` turns of its loop. -/
def ensureLimitFuel : Nat → Session → Option Session
  | 0, s => if s.cache.total > s.cache.limit then none else some s
  | fuel + 1, s =>
    if s.cache.total > s.cache.limit then do
      let (k, i) ← s.cache.set.entries.head?
      let ent ← s.wrCache.find? i
      let s := { s with cache.total := s.cache.total - ent.getSize }
      let s := s.writeToDisk fails i ent
      let s ← s.eraseKey k
      let ent ← s.wrCache.find? i
      ensureLimitFuel fuel (s.insertKey i ent).2
    else some s

def ensureLimit : Option Session := ensureLimitFuel fails s.cache.set.entries.length s

/-- `WrDiskCache::add`: whether the entry is new. -/
def add (ent : WrDiskCacheEntry) : Option (Bool × Session) :=
  match s.insertKey i ent with
  | (true, s) =>
    ({ s with cache.total := s.cache.total + ent.getSize }.ensureLimit fails).map (Prod.mk true)
  | (false, s) => some (false, s)

/-- `WrDiskCache::remove`: whether the entry was there. -/
def remove (ent : WrDiskCacheEntry) : Bool × Session :=
  match s.eraseKey ent.key with
  | some s => (true, { s with cache.total := s.cache.total - ent.getSize })
  | none => (false, s)

/-- `WrDiskCache::update`: whether the entry was there. -/
def update (ent : WrDiskCacheEntry) (delta : Int) : Option (Bool × Session) :=
  match s.eraseKey ent.key with
  | none => some (false, s)
  | some s =>
    let (_, s) := s.insertKey i ent
    if delta < 0 ∧ s.cache.total < -delta then none
    else ({ s with cache.total := s.cache.total + delta }.ensureLimit fails).map (Prod.mk true)

/-! ## The functions of `Piece` -/

def initWrCache : Option Session :=
  match s.wrCache.find? i with
  | some _ => none
  | none => do
    let ent : WrDiskCacheEntry := {}
    let (rv, s) ← (s.setEntry i ent).add fails i ent
    if rv then some s else none

def flushWrCache : Option Session := do
  let ent ← s.wrCache.find? i
  let (_, s) ← s.update fails i ent (-ent.getSize)
  let ent ← s.wrCache.find? i
  some (s.writeToDisk fails i ent)

def clearWrCache : Option Session := do
  let ent ← s.wrCache.find? i
  let (_, s) ← s.update fails i ent (-ent.getSize)
  let ent ← s.wrCache.find? i
  some { s.setEntry i ent.clear with cleared := s.cleared ++ ent.bytes.map (Prod.mk i) }

def updateWrCache (goff : Nat) (cell : DataCell) : Option Session := do
  let ent ← s.wrCache.find? i
  let ent ← ent.cacheData goff cell
  let s := { s.setEntry i ent with put := s.put ++ (cell.data.zipIdx goff).map (Prod.mk i) }
  let (rv, s) ← s.update fails i ent cell.len
  if rv then some s else none

def appendWrCache (goff : Nat) (data : List UInt8) : Option (Nat × Session) := do
  let ent ← s.wrCache.find? i
  let (delta, ent) := ent.append goff data
  let s := { s.setEntry i ent with
    put := s.put ++ ((data.take delta).zipIdx goff).map (Prod.mk i) }
  if 0 < delta then
    let (rv, s) ← s.update fails i ent delta
    if rv then some (delta, s) else none
  else some (delta, s)

/-- The destructor of an entry deletes the cells that are left. -/
def releaseWrCache : Session :=
  match s.wrCache.find? i with
  | none => s
  | some ent =>
    let (_, s) := s.remove ent
    { s with wrCache := s.wrCache.erase i, lost := s.lost ++ ent.bytes.map (Prod.mk i) }

end Session

/-- A call of one of the functions of the piece `i`. -/
inductive Op
  | initWrCache (i : Nat)
  | updateWrCache (i goff : Nat) (cell : DataCell)
  | appendWrCache (i goff : Nat) (data : List UInt8)
  | flushWrCache (i : Nat)
  | clearWrCache (i : Nat)
  | releaseWrCache (i : Nat)
  deriving DecidableEq

variable (fails : Nat → Bool)

/-- `fails n` is whether the `n`th call of `writeCache` throws. -/
def Session.run (s : Session) : Op → Option Session
  | .initWrCache i => s.initWrCache fails i
  | .updateWrCache i goff cell => s.updateWrCache fails i goff cell
  | .appendWrCache i goff data => (s.appendWrCache fails i goff data).map Prod.snd
  | .flushWrCache i => s.flushWrCache fails i
  | .clearWrCache i => s.clearWrCache fails i
  | .releaseWrCache i => some (s.releaseWrCache i)

def step (s : Option Session) (op : Op) : Option Session := s.bind fun s => s.run fails op

end FluxCore.Cache
