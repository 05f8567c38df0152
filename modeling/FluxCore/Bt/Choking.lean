import FluxCore.Lib.Run
import Mathlib.Data.List.Sort
import Mathlib.Logic.Function.Basic

/-!
# Choke rounds

`BtLeecherStateChoke` and `BtSeederStateChoke` over the peers in use. A round sets two flags of the
session of a peer: that it is to be choked, and that it is unchoked optimistically. Time is counted
in nanoseconds.
-/

namespace FluxCore.Bt.Choking

/-- A peer with the members of its session that rounds read. -/
structure Peer where
  id : Nat
  active : Bool := false
  amChoking : Bool := true
  peerInterested : Bool := false
  snubbing : Bool := false
  downloadSpeed : Int := 0
  uploadSpeed : Int := 0
  lastDownloadUpdate : Nat := 0
  lastAmUnchoking : Nat := 0
  outstandingUpload : Nat := 0
  deriving DecidableEq, Repr

/-- The flags of the sessions, by the id of the peer. -/
structure Flags where
  chokingRequired : Nat → Bool
  optUnchoking : Nat → Bool

namespace Flags

def setChokingRequired (f : Flags) (id : Nat) (b : Bool) : Flags :=
  { f with chokingRequired := Function.update f.chokingRequired id b }

def setOptUnchoking (f : Flags) (id : Nat) (b : Bool) : Flags :=
  { f with optUnchoking := Function.update f.optUnchoking id b }

def shouldBeChoking (f : Flags) (id : Nat) : Bool :=
  if f.optUnchoking id then false else f.chokingRequired id

end Flags

def seconds (n : Nat) : Nat := n * 1000000000

/-! ## The order of a round -/

/-- What `std::sort` needs of a comparison. -/
structure StrictWeak (lt : Peer → Peer → Bool) : Prop where
  asymm : ∀ a b, lt a b = true → lt b a = false
  trans : ∀ a b c, lt a b = false → lt b c = false → lt a c = false

/-- How peers are sorted and shuffled in a round. -/
structure Arrangement where
  sort : (Peer → Peer → Bool) → List Peer → List Peer
  shuffle : Nat → List Peer → List Peer
  sort_perm : ∀ lt l, (sort lt l).Perm l
  sort_sorted : ∀ lt, StrictWeak lt → ∀ l, (sort lt l).Pairwise fun a b => lt b a = false
  shuffle_perm : ∀ n l, (shuffle n l).Perm l

/-- The loop of both rounds, which collects the peers that take part. -/
def collect (takesPart : Peer → Bool) : List Peer → Flags → List Peer × Flags
  | [], f => ([], f)
  | p :: ps, f =>
    if !p.active then collect takesPart ps f
    else
      let f := f.setChokingRequired p.id true
      if takesPart p then
        let r := collect takesPart ps f
        (p :: r.1, r.2)
      else collect takesPart ps (f.setOptUnchoking p.id false)

/-! ## The leecher's round -/

namespace Leecher

/-- The peer is interested and has sent a block in the last 30 seconds. -/
def regularUnchoker (now : Nat) (p : Peer) : Bool :=
  p.peerInterested && now - p.lastDownloadUpdate < seconds 30

/-- `operator<`. -/
def lt (a b : Peer) : Bool := a.downloadSpeed > b.downloadSpeed

def plannedOptimisticUnchoke (arr : Arrangement) (entries : List Peer) (f : Flags) : Flags :=
  let f := entries.foldl (fun f p => f.setOptUnchoking p.id false) f
  match arr.shuffle 0 (entries.filter fun p => p.amChoking && p.peerInterested) with
  | [] => f
  | p :: _ => f.setOptUnchoking p.id true

/-- Regular unchokers by speed, and then the others. -/
def order (arr : Arrangement) (now : Nat) (entries : List Peer) : List Peer :=
  arr.sort lt (entries.filter (regularUnchoker now)) ++
    arr.shuffle 1 (entries.filter fun p => !regularUnchoker now p)

/-- The loop over the first `count` entries, with the flag that one of them had been unchoked
optimistically. -/
def regularLoop : Nat → List Peer → Flags × Bool → Flags × Bool
  | 0, _, s => s
  | _ + 1, [], s => s
  | count + 1, p :: ps, (f, fastOptUnchoker) =>
    if !p.peerInterested then regularLoop count ps (f, fastOptUnchoker)
    else
      let f := f.setChokingRequired p.id false
      if f.optUnchoking p.id then regularLoop count ps (f.setOptUnchoking p.id false, true)
      else regularLoop count ps (f, fastOptUnchoker)

def regularUnchoke (arr : Arrangement) (now : Nat) (entries : List Peer) (f : Flags) : Flags :=
  let peerEntries := order arr now entries
  let s := regularLoop 3 peerEntries (f, false)
  if s.2 then
    match peerEntries.find? (·.peerInterested) with
    | none => s.1
    | some p => s.1.setOptUnchoking p.id true
  else s.1

def executeChoke (arr : Arrangement) (now round : Nat) (peerSet : List Peer) (f : Flags) : Flags :=
  let r := collect (fun p => !p.snubbing) peerSet f
  let f := if round = 0 then plannedOptimisticUnchoke arr r.1 r.2 else r.2
  regularUnchoke arr now r.1 f

end Leecher

/-! ## The seeder's round -/

namespace Seeder

def recentUnchoking (now : Nat) (p : Peer) : Bool := now - p.lastAmUnchoking < seconds 20

/-- `operator<`. -/
def lt (now : Nat) (a b : Peer) : Bool :=
  if 0 < a.outstandingUpload ∧ b.outstandingUpload = 0 then true
  else if a.outstandingUpload = 0 ∧ 0 < b.outstandingUpload then false
  else if recentUnchoking now a ∧ a.lastAmUnchoking > b.lastAmUnchoking then true
  else if recentUnchoking now b then false
  else a.uploadSpeed > b.uploadSpeed

def unchoke (arr : Arrangement) (now round : Nat) (entries : List Peer) (f : Flags) : Flags :=
  let count := if round = 2 then 4 else 3
  let peers := arr.sort (lt now) entries
  let f := (peers.take count).foldl (fun f p => f.setChokingRequired p.id false) f
  if round < 2 then
    let f := peers.foldl (fun f p => f.setOptUnchoking p.id false) f
    match arr.shuffle 0 (peers.drop count) with
    | [] => f
    | p :: _ => f.setOptUnchoking p.id true
  else f

def executeChoke (arr : Arrangement) (now round : Nat) (peerSet : List Peer) (f : Flags) : Flags :=
  let r := collect (·.peerInterested) peerSet f
  unchoke arr now round r.1 r.2

end Seeder

/-! ## The peers in use -/

structure State where
  usedPeers : List Peer := []
  flags : Flags := ⟨fun _ => true, fun _ => false⟩
  leecherRound : Nat := 0
  seederRound : Nat := 0

inductive Event where
  /-- A peer without a session comes into use. -/
  | checkout (p : Peer)
  | erase (id : Nat)
  | allocateSessionResource (id : Nat)
  | releaseSessionResource (id : Nat)
  | snubbing (id : Nat) (b : Bool)
  /-- What else is known of a peer changes. -/
  | progress (p : Peer)
  | leecherChoke (arr : Arrangement) (now : Nat)
  | seederChoke (arr : Arrangement) (now : Nat)

namespace State

/-- The peer of the id is another one. -/
def modify (s : State) (id : Nat) (f : Peer → Peer) : State :=
  { s with usedPeers := s.usedPeers.map fun p => if p.id = id then f p else p }

def resetFlags (s : State) (id : Nat) : State :=
  { s with flags := (s.flags.setChokingRequired id true).setOptUnchoking id false }

def nextRound (round : Nat) : Nat := if round + 1 = 3 then 0 else round + 1

def step (s : State) : Event → State
  | .checkout p =>
    if p.id ∈ s.usedPeers.map (·.id) then s
    else { s with usedPeers := { p with active := false } :: s.usedPeers }
  | .erase id => { s with usedPeers := s.usedPeers.filter (·.id ≠ id) }
  | .allocateSessionResource id =>
    (s.modify id fun p => { id := p.id, active := true }).resetFlags id
  | .releaseSessionResource id => s.modify id fun p => { p with active := false }
  | .snubbing id b =>
    let s := s.modify id fun p => { p with snubbing := b }
    if b then s.resetFlags id else s
  | .progress p => s.modify p.id fun q => { p with active := q.active, snubbing := q.snubbing }
  | .leecherChoke arr now =>
    { s with
      flags := Leecher.executeChoke arr now s.leecherRound s.usedPeers s.flags
      leecherRound := nextRound s.leecherRound }
  | .seederChoke arr now =>
    { s with
      flags := Seeder.executeChoke arr now s.seederRound s.usedPeers s.flags
      seederRound := nextRound s.seederRound }

end State

/-! ## Flags after a loop -/

section Flags

variable {l ps : List Peer} {f : Flags} {i : Nat}

@[simp] theorem chokingRequired_setChokingRequired (f : Flags) (id i : Nat) (b : Bool) :
    (f.setChokingRequired id b).chokingRequired i = if i = id then b else f.chokingRequired i :=
  Function.update_apply ..

@[simp] theorem optUnchoking_setChokingRequired (f : Flags) (id : Nat) (b : Bool) :
    (f.setChokingRequired id b).optUnchoking = f.optUnchoking := rfl

@[simp] theorem optUnchoking_setOptUnchoking (f : Flags) (id i : Nat) (b : Bool) :
    (f.setOptUnchoking id b).optUnchoking i = if i = id then b else f.optUnchoking i :=
  Function.update_apply ..

@[simp] theorem chokingRequired_setOptUnchoking (f : Flags) (id : Nat) (b : Bool) :
    (f.setOptUnchoking id b).chokingRequired = f.chokingRequired := rfl

/-- The ids of the peers. -/
def ids (l : List Peer) : List Nat := l.map (·.id)

theorem mem_ids_cons {p : Peer} : i ∈ ids (p :: l) ↔ i = p.id ∨ i ∈ ids l := List.mem_cons

theorem foldl_setOptUnchoking (l : List Peer) (f : Flags) :
    (l.foldl (fun f p => f.setOptUnchoking p.id false) f).chokingRequired = f.chokingRequired ∧
      ∀ i, (l.foldl (fun f p => f.setOptUnchoking p.id false) f).optUnchoking i = true ↔
        i ∉ ids l ∧ f.optUnchoking i = true := by
  induction l generalizing f with
  | nil => exact ⟨rfl, fun i => by simp [ids]⟩
  | cons p l ih =>
    obtain ⟨hc, ho⟩ := ih (f.setOptUnchoking p.id false)
    refine ⟨hc, fun i => ?_⟩
    rw [List.foldl_cons, ho, optUnchoking_setOptUnchoking, mem_ids_cons]
    grind

theorem foldl_setChokingRequired (l : List Peer) (f : Flags) :
    (l.foldl (fun f p => f.setChokingRequired p.id false) f).optUnchoking = f.optUnchoking ∧
      ∀ i, (l.foldl (fun f p => f.setChokingRequired p.id false) f).chokingRequired i = true ↔
        i ∉ ids l ∧ f.chokingRequired i = true := by
  induction l generalizing f with
  | nil => exact ⟨rfl, fun i => by simp [ids]⟩
  | cons p l ih =>
    obtain ⟨ho, hc⟩ := ih (f.setChokingRequired p.id false)
    refine ⟨ho, fun i => ?_⟩
    rw [List.foldl_cons, hc, chokingRequired_setChokingRequired, mem_ids_cons]
    grind

/-- Every active peer is choked, and those that do not take part are not unchoked optimistically any
more. -/
theorem collect_spec (takesPart : Peer → Bool) (ps : List Peer) (f : Flags) :
    (collect takesPart ps f).1 = ps.filter (fun p => p.active && takesPart p) ∧
      (∀ i, (collect takesPart ps f).2.chokingRequired i = true ↔
        i ∈ ids (ps.filter (·.active)) ∨ f.chokingRequired i = true) ∧
      ∀ i, (collect takesPart ps f).2.optUnchoking i = true ↔
        i ∉ ids (ps.filter fun p => p.active && !takesPart p) ∧ f.optUnchoking i = true := by
  induction ps generalizing f with
  | nil => exact ⟨rfl, fun i => by simp [collect, ids], fun i => by simp [collect, ids]⟩
  | cons p ps ih =>
    rw [collect, List.filter_cons, List.filter_cons, List.filter_cons]
    cases hactive : p.active with
    | false => exact ih f
    | true =>
      cases hpart : takesPart p with
      | true =>
        obtain ⟨hentries, hc, ho⟩ := ih (f.setChokingRequired p.id true)
        refine ⟨congrArg (p :: ·) hentries, fun i => (hc i).trans ?_, ho⟩
        rw [chokingRequired_setChokingRequired]
        simp only [if_true, mem_ids_cons]
        grind
      | false =>
        obtain ⟨hentries, hc, ho⟩ :=
          ih ((f.setChokingRequired p.id true).setOptUnchoking p.id false)
        refine ⟨hentries, fun i => (hc i).trans ?_, fun i => (ho i).trans ?_⟩
        · rw [chokingRequired_setOptUnchoking, chokingRequired_setChokingRequired]
          simp only [if_true, mem_ids_cons]
          grind
        · rw [optUnchoking_setOptUnchoking, optUnchoking_setChokingRequired]
          simp only [if_true, mem_ids_cons, Bool.and_self, Bool.not_false]
          grind

end Flags

end FluxCore.Bt.Choking
