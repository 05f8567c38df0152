import FluxCore.Request.IndexedList
import Mathlib.Data.Int.Init

/-!
# Downloads

`RequestGroup` is one download, with the flags the download manager and the remote interface act on.
A group holds a dependency when its torrent is itself a download: `BtDependency::resolve` waits for
that one to end and, if its content loads, turns the group into a BitTorrent download.
-/

namespace FluxCore.Request

/-- `a2_gid_t`. `GroupId` keeps the ids in use in a set and gives none of them out again. -/
abbrev Gid := UInt64

/-- `RequestGroup::State`. -/
inductive State where
  | waiting
  | active
deriving DecidableEq, Repr

structure BtDependency where
  /-- `dependee_`; the reference is cut once the dependency is resolved. -/
  dependee : Option Gid
deriving DecidableEq, Repr

/-- What `BtDependency::resolve` asks of its dependee. -/
structure Dependee where
  numCommand : Nat
  downloadFinished : Bool
  /-- The content of the dependee is a torrent that has the files of the dependant. -/
  loads : Bool
deriving Repr

/-- What the creator of a group chooses. -/
structure NewGroup where
  gid : Gid
  /-- `getDownloadContext()->hasAttribute(CTX_ATTR_BT)`. -/
  bt : Bool := false
  /-- `PREF_BT_DETACH_SEED_ONLY`. -/
  detachSeedOnly : Bool := false
  pauseRequested : Bool := false
  dependency : Option BtDependency := none
deriving DecidableEq, Repr

structure RequestGroup extends NewGroup where
  numCommand : Nat := 0
  seedOnly : Bool := false
  restartRequested : Bool := false
  haltRequested : Bool := false
  forceHaltRequested : Bool := false
  state : State := .waiting
  /-- `requestGroupMan_` is set. -/
  requestGroupMan : Bool := false
deriving DecidableEq, Repr

namespace RequestGroup

/-- The constructor. -/
def create (g : NewGroup) : RequestGroup := { toNewGroup := g }

variable (g : RequestGroup)

/-- `BtDependency::resolve`, with what it finds out about each dependee. -/
def isDependencyResolved (dependee : Gid → Dependee) : Bool × RequestGroup :=
  match g.dependency with
  | none => (true, g)
  | some ⟨none⟩ => (true, g)
  | some ⟨some d⟩ =>
    let cut := { g with dependency := some ⟨none⟩ }
    if (dependee d).numCommand = 0 ∧ (dependee d).downloadFinished then
      -- a dependee that does not load is reported and the group goes on without BitTorrent
      (true, if (dependee d).loads then { cut with bt := true } else cut)
    else if (dependee d).numCommand = 0 then (true, cut)
    else (false, g)

def setHaltRequested (f : Bool) : RequestGroup :=
  { g with haltRequested := f, pauseRequested := !f && g.pauseRequested }

def setForceHaltRequested (f : Bool) : RequestGroup :=
  { g.setHaltRequested f with forceHaltRequested := f }

/-- `seedOnly_` is reset so that a seeding torrent can be paused and resumed. -/
def releaseRuntimeResource : RequestGroup := { g with seedOnly := false }

/-- The condition of `pauseRequestGroup`. -/
def canPause (reserved forcePause : Bool) : Bool :=
  (reserved && !g.pauseRequested) ||
    (!reserved && !g.forceHaltRequested &&
      ((forcePause && g.haltRequested && g.pauseRequested) ||
        (!g.haltRequested && !g.pauseRequested)))

/-- `pauseRequestGroup`; `setHaltRequested` clears the request to pause, so it comes first. -/
def pause (reserved forcePause : Bool) : RequestGroup :=
  if g.canPause reserved forcePause then
    let g := if reserved then g
      else if forcePause then g.setForceHaltRequested true
      else g.setHaltRequested true
    { g with pauseRequested := true }
  else g

theorem pause_same (reserved forcePause : Bool) :
    (g.pause reserved forcePause).gid = g.gid ∧
      (g.pause reserved forcePause).seedOnly = g.seedOnly := by
  unfold pause
  cases g.canPause reserved forcePause <;> cases reserved <;> cases forcePause <;>
    exact ⟨rfl, rfl⟩

/-- `requestGroups_` and `reservedGroups_` find a group by `getGID()`. -/
abbrev getGID : Gid := g.gid

end RequestGroup

/-- A change of a group; the id stays. -/
abbrev Change := { f : RequestGroup → RequestGroup // ∀ g, (f g).getGID = g.getGID }

/-- `seedOnly_` is set. -/
def Change.seedOnly : Change := ⟨fun g => { g with seedOnly := true }, fun _ => rfl⟩

/-- Commands of the group have been created or have ended. -/
def Change.numCommand (n : Nat) : Change := ⟨fun g => { g with numCommand := n }, fun _ => rfl⟩

abbrev RequestGroupList := IndexedList RequestGroup.getGID

end FluxCore.Request
