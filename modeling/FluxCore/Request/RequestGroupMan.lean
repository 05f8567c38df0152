import FluxCore.Request.RequestGroup

/-!
# The download manager

`RequestGroupMan` holds the downloads that run in `requestGroups_` and those that wait in
`reservedGroups_`. `fillRequestGroupFromReserver` takes out the groups whose commands have all
ended, and then starts waiting groups for as long as there are slots of their kind. A group that
cannot start is set aside in the local `pending`, and goes back to the front of the queue when the
scan is over. With a deferred input file the scan reads more groups from it whenever the queue runs
empty.
-/

namespace FluxCore.Request

/-- What a call of `createRequestGroupForUri` on one entry of the input file makes of it, or that
the entry is malformed and `parseNext` throws. -/
inductive UriEntry where
  | groups (gs : List NewGroup)
  | error
deriving DecidableEq, Repr

def UriEntry.gids : UriEntry → List Gid
  | groups gs => gs.map NewGroup.gid
  | error => []

/-- How `createInitialCommand` ends. -/
inductive StartupEnd where
  | returns
  /-- By a `RecoverableException`. -/
  | recoverable
  /-- By any other exception. -/
  | other
deriving DecidableEq, Repr

/-- What `createInitialCommand` does to its group. -/
structure Startup where
  /-- The commands and entries of the group that are alive when it ends. -/
  numCommand : Nat := 1
  /-- It calls `enableSeedOnly`, as for a torrent whose files are complete. -/
  seeding : Bool := false
  ends : StartupEnd := .returns
deriving DecidableEq, Repr

/-- What a call of `fillRequestGroupFromReserver` meets outside the manager. -/
structure Outside where
  /-- The result of `optimizeConcurrentDownloads`. -/
  optimized : Int := 1
  /-- The groups that `postDownloadProcessing` makes for a group that has finished. -/
  next : Gid → List NewGroup := fun _ => []
  dependee : Gid → Dependee := fun _ => ⟨0, false, false⟩
  startup : Gid → Startup := fun _ => {}

structure RequestGroupMan where
  requestGroups : RequestGroupList := {}
  reservedGroups : RequestGroupList := {}
  numActive : Nat := 0
  /-- The assertion of `decreaseNumActive` has failed. -/
  assertFailed : Bool := false
  maxConcurrentDownloads : Int := 5
  optimizeConcurrentDownloads : Bool := false
  keepRunning : Bool := false
  /-- The entries that are left in the file of `uriListParser_`. -/
  uriListParser : Option (List UriEntry) := none

namespace RequestGroupMan

variable (m : RequestGroupMan)

def parserGids : List Gid :=
  match m.uriListParser with
  | none => []
  | some entries => entries.flatMap UriEntry.gids

/-- The ids in use. Those of the groups a parser is still to make are drawn up front. -/
def gids : List Gid := m.requestGroups.keys ++ (m.reservedGroups.keys ++ m.parserGids)

/-- The groups that can be made: `GroupId` refuses an id that is in use. -/
def register (gs : List NewGroup) : List RequestGroup :=
  (IndexedList.taken NewGroup.gid m.gids gs).map RequestGroup.create

/-- The change of the group with the id `gid`. -/
def onGid (gid : Gid) (f : Change) : Change where
  val g := if g.gid = gid then f.val g else g
  property g := by
    dsimp only
    split
    · exact f.property g
    · rfl

/-- The groups are shared pointers: one that changes does so in either list. -/
def modify (gid : Gid) (f : Change) : RequestGroupMan :=
  { m with
    requestGroups := m.requestGroups.map (onGid gid f).val (onGid gid f).property
    reservedGroups := m.reservedGroups.map (onGid gid f).val (onGid gid f).property }

def decreaseNumActive : RequestGroupMan :=
  { m with numActive := m.numActive - 1, assertFailed := m.assertFailed || m.numActive == 0 }

/-- `RequestGroup::enableSeedOnly`, called by a command of a group that runs. -/
def enableSeedOnly (gid : Gid) : RequestGroupMan :=
  match m.requestGroups.seq.find? (·.gid = gid) with
  | none => m
  | some g =>
    if g.seedOnly || !g.detachSeedOnly then m
    else if g.requestGroupMan then
      (m.modify gid .seedOnly).decreaseNumActive
    else m

def addRequestGroup (g : RequestGroup) : RequestGroupMan :=
  { m with numActive := m.numActive + 1, requestGroups := m.requestGroups.push_back g }

def appendReservedGroup (list : RequestGroupList) (gs : List RequestGroup) : RequestGroupList :=
  gs.foldl (fun list g => list.push_back g) list

def insertReservedGroup (pos : Nat) (gs : List RequestGroup) : RequestGroupMan :=
  { m with reservedGroups := m.reservedGroups.insert (min m.reservedGroups.size pos) gs }

/-- What becomes of a group that `ProcessStoppedRequestGroup` puts back to wait. -/
def paused (g : RequestGroup) : RequestGroup :=
  let g := ({ g with state := .waiting } : RequestGroup).releaseRuntimeResource
  let g := g.setForceHaltRequested false
  { g with pauseRequested := g.pauseRequested && !g.restartRequested, restartRequested := false }

/-- `ProcessStoppedRequestGroup` on a group that has no commands left. -/
def processStopped (next : Gid → List NewGroup) (g : RequestGroup) : RequestGroupMan :=
  let m := if g.seedOnly then m else m.decreaseNumActive
  if g.pauseRequested then { m with reservedGroups := m.reservedGroups.push_front (paused g) }
  else m.insertReservedGroup 0 (m.register (next g.gid))

def removeStoppedGroup (next : Gid → List NewGroup) : RequestGroupMan :=
  let m := m.requestGroups.seq.foldl
    (fun m g => if g.numCommand = 0 then m.processStopped next g else m) m
  { m with requestGroups := m.requestGroups.remove_if fun g => g.numCommand = 0 }

end RequestGroupMan

/-! ## Filling the slots -/

/-- The locals of `fillRequestGroupFromReserver` that decide which groups start. -/
structure Slots where
  maxConcurrentDownloads : Int
  maxBtSlots : Int
  num : Int
  numBtActive : Nat
  numHttpActive : Nat
  hasHttpSlot : Bool
  hasBtSlot : Bool
  count : Nat := 0
deriving DecidableEq, Repr

namespace Slots

variable (s : Slots)

/-- The loop goes on. -/
def Open : Prop := s.count < s.num

instance : Decidable s.Open := inferInstanceAs (Decidable ((s.count : Int) < s.num))

def hasSlot (bt : Bool) : Bool := if bt then s.hasBtSlot else s.hasHttpSlot

/-- The counters after a start-up that has returned. -/
def started (bt : Bool) : Slots :=
  if bt then
    { s with
      numBtActive := s.numBtActive + 1
      hasBtSlot := ((s.numBtActive + 1 : Nat) : Int) < s.maxBtSlots
      count := s.count + 1 }
  else
    { s with
      numHttpActive := s.numHttpActive + 1
      hasHttpSlot := ((s.numHttpActive + 1 : Nat) : Int) < s.maxConcurrentDownloads
      count := s.count + 1 }

/-- The loop sets the group aside. -/
def passesOver (keepRunning : Bool) (dependee : Gid → Dependee) (g : RequestGroup) : Bool :=
  !s.hasSlot g.bt || (keepRunning && g.pauseRequested) || !(g.isDependencyResolved dependee).1

end Slots

/-- The number of downloads of one kind that are not only seeding. -/
def active (bt : Bool) (l : RequestGroupList) : Nat :=
  l.seq.countP fun g => !g.seedOnly && g.bt == bt

/-- `maxBtSlots`: a quarter of the slots, two at least, is kept for HTTP, and one for BitTorrent. -/
def maxBtSlots (maxConcurrentDownloads : Int) : Int :=
  max 1 (maxConcurrentDownloads - max 2 (maxConcurrentDownloads.tdiv 4))

def RequestGroupMan.slots (m : RequestGroupMan) (maxConcurrentDownloads : Int) : Slots :=
  let numBtActive := active true m.requestGroups
  let numHttpActive := active false m.requestGroups
  { maxConcurrentDownloads, maxBtSlots := maxBtSlots maxConcurrentDownloads
    num := max (maxConcurrentDownloads - numHttpActive)
      (maxBtSlots maxConcurrentDownloads - numBtActive)
    numBtActive, numHttpActive
    hasHttpSlot := (numHttpActive : Int) < maxConcurrentDownloads
    hasBtSlot := (numBtActive : Int) < maxBtSlots maxConcurrentDownloads }

/-- A group is put among the running ones and `createInitialCommand` is called on it. -/
def RequestGroupMan.startGroup (m : RequestGroupMan) (r : Startup) (g : RequestGroup) :
    RequestGroupMan :=
  let m := m.addRequestGroup { g with requestGroupMan := true, state := .active }
  let m := m.modify g.gid (.numCommand r.numCommand)
  if r.seeding then m.enableSeedOnly g.gid else m

/-- The manager in the loop of `fillRequestGroupFromReserver`, with the locals of the loop. -/
structure Fill where
  man : RequestGroupMan
  slots : Slots
  pending : List RequestGroup := []

namespace Fill

variable (f : Fill) (out : Outside)

def setAside (g : RequestGroup) : Fill := { f with pending := f.pending ++ [g] }

/-- The start of `g`, which was a BitTorrent download when it was taken from the queue if `bt`. The
result says that an exception leaves the call. -/
def start (bt : Bool) (g : RequestGroup) : Fill × Bool :=
  let f' := { f with man := f.man.startGroup (out.startup g.gid) g }
  match (out.startup g.gid).ends with
  | .returns => ({ f' with slots := f.slots.started bt }, false)
  | .recoverable => (f', false)
  | .other => (f', true)

/-- The body of the loop, for the group at the front of the queue. -/
def consider (g : RequestGroup) : Fill × Bool :=
  let f := { f with man := { f.man with reservedGroups := f.man.reservedGroups.pop_front } }
  if !f.slots.hasSlot g.bt then (f.setAside g, false)
  else if f.man.keepRunning && g.pauseRequested then (f.setAside g, false)
  else
    match g.isDependencyResolved out.dependee with
    | (true, g') => f.start out g.bt g'
    | (false, _) => (f.setAside g, false)

/-- The turns of the loop that find the queue not empty, `n` at most. -/
def drain : Nat → Fill → Fill × Bool
  | 0, f => (f, false)
  | n + 1, f =>
    if f.slots.Open then
      match f.man.reservedGroups.seq with
      | [] => (f, false)
      | g :: _ =>
        match f.consider out g with
        | (f, true) => (f, true)
        | (f, false) => drain n f
    else (f, false)

/-- The loop, with what is left in the file of the parser. -/
def loop : List UriEntry → Fill → Fill × Bool
  | entries, f =>
    match f.drain out f.man.reservedGroups.size with
    | (f, true) => (f, true)
    | (f, false) =>
      if f.slots.Open then
        match entries with
        | [] => ({ f with man := { f.man with uriListParser := none } }, false)
        | .error :: entries =>
          ({ f with man := { f.man with uriListParser := some entries } }, true)
        | .groups gs :: entries =>
          loop entries
            { f with
              man := { f.man with
                reservedGroups := RequestGroupMan.appendReservedGroup f.man.reservedGroups
                  (gs.map RequestGroup.create)
                uriListParser := some entries } }
      else (f, false)

/-- The whole loop. -/
def run : Fill × Bool :=
  match f.man.uriListParser with
  | none => f.drain out f.man.reservedGroups.size
  | some entries => f.loop out entries

end Fill

namespace RequestGroupMan

variable (m : RequestGroupMan) (out : Outside)

/-- The number of slots that a call goes by. -/
def concurrency : Int :=
  if m.optimizeConcurrentDownloads then out.optimized else m.maxConcurrentDownloads

/-- The state in which the loop starts. -/
def toFill : Fill := { man := m, slots := m.slots (m.concurrency out) }

/-- `fillRequestGroupFromReserver`; the result says that an exception leaves the call. -/
def fillRequestGroupFromReserver : RequestGroupMan × Bool :=
  let m := m.removeStoppedGroup out.next
  let f := m.toFill out
  if !f.slots.hasHttpSlot && !f.slots.hasBtSlot then (m, false)
  else
    match f.run out with
    -- the groups in `pending` go with the locals
    | (f, true) => (f.man, true)
    | (f, false) =>
      ({ f.man with reservedGroups := f.man.reservedGroups.insert 0 f.pending }, false)

end RequestGroupMan

end FluxCore.Request
