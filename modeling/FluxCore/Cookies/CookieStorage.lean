import FluxCore.Cookies.Cookie
import FluxCore.Lib.Binary64
import FluxCore.Lib.LabelTree
import FluxCore.Lib.OrderedMap
import Mathlib.Data.Prod.Lex

/-!
# The cookie store

Cookies are kept in a tree whose edges are the labels of their domains, the last label first. The
nodes that hold cookies are tracked in the order of their last update; when there are many, the
least recent ones are evicted, and the branches they leave empty are cut off.

The nodes are cells of a heap. Where the source reads through a pointer that is null or dangling, or
would not come to an end, the operation has a `Fault`.
-/

namespace FluxCore.Cookies

open Utp (Bytes)
open Heap (Malloc)

/-- What a `DomainNode` has besides its label and its links. -/
structure DomainData where
  lastAccessTime : Int := 0
  lruAccessTime : Int := 0
  inLru : Bool := false
  cookies : Option (List Cookie) := none

abbrev DomainNode := LabelNode Bytes DomainData

namespace DomainData

variable (d : DomainData)

def empty : Bool := d.cookies.all List.isEmpty

end DomainData

def DomainNode.hasNext (n : DomainNode) : Bool := !n.next.isEmpty

inductive Fault where
  | null
  | dangling
  | endless

structure CookieStorage where
  heap : Heap DomainNode
  rootNode : Nat
  lruTracker : OrderedMap (Int ×ₗ Nat) Unit
  /-- The nodes that were destroyed, each as it was then. No code reads this. -/
  destroyed : List DomainNode := []

namespace CookieStorage

def new (malloc : Malloc DomainNode) : CookieStorage where
  heap := Heap.empty.set (malloc.alloc .empty) ⟨[], none, [], {}⟩
  rootNode := malloc.alloc .empty
  lruTracker := .empty

variable (isNumericHost : Bytes → Bool) (s : CookieStorage)

def deref (a : Nat) : Except Fault DomainNode :=
  match s.heap.cell a with
  | some n => .ok n
  | none => .error .dangling

/-- The node `n` of the cell `a` is changed. -/
def setData (a : Nat) (n : DomainNode) (d : DomainData) : CookieStorage :=
  { s with heap := LabelTree.setData s.heap a n d }

/-! ## Eviction -/

def untrack (a : Nat) (n : DomainNode) : CookieStorage :=
  { s.setData a n { n.data with inLru := false } with
    lruTracker := s.lruTracker.erase (toLex (n.data.lruAccessTime, a)) }

/-- `parent->removeNode(node)`. The child under the label of `node` is destroyed. -/
def removeNode (p : Nat) (parent : DomainNode) (label : Bytes) : Except Fault CookieStorage :=
  match parent.find label with
  | none => .ok s
  | some c =>
    match s.heap.cell c with
    | none => .error .dangling
    | some n => .ok { s with
        heap := LabelTree.removeChild s.heap p parent label c
        destroyed := n :: s.destroyed }

/-- The inner loop of `evictNode`, from the node in the cell `a` upwards. -/
def evictUpwards : Nat → CookieStorage → Nat → Except Fault CookieStorage
  | 0, _, _ => .error .endless
  | fuel + 1, s, a =>
    match s.deref a with
    | .error e => .error e
    | .ok node =>
      if node.data.empty && !node.hasNext then
        match node.parent with
        | none => .error .null
        | some p =>
          match s.deref p with
          | .error e => .error e
          | .ok parent =>
            match s.removeNode p parent node.label with
            | .error e => .error e
            | .ok s =>
              match s.deref p with
              | .error e => .error e
              | .ok parent =>
                if !parent.data.empty || parent.hasNext || p = s.rootNode then .ok s
                else evictUpwards fuel (if parent.data.inLru then s.untrack p parent else s) p
      else .ok s

/-- A turn of the outer loop, for the least recent node. -/
def evictFirst (a : Nat) : Except Fault CookieStorage :=
  match s.deref a with
  | .error e => .error e
  | .ok node =>
    match node.data.cookies with
    | none => .error .null
    | some _ =>
      let s := { s.setData a node { node.data with inLru := false, cookies := some [] } with
        lruTracker := s.lruTracker.tail }
      evictUpwards s.heap.live.card s a

def evictNode : Nat → CookieStorage → Except Fault CookieStorage
  | 0, s => .ok s
  | delnum + 1, s =>
    match s.lruTracker.entries.head? with
    | none => .ok s
    | some e =>
      match s.evictFirst (ofLex e.1).2 with
      | .error f => .error f
      | .ok s => evictNode delnum s

/-! ## Storing and finding -/

def updateLru (a : Nat) (n : DomainNode) (now : Int) : CookieStorage :=
  { s.setData a n { n.data with inLru := true, lruAccessTime := now } with
    lruTracker :=
      (if n.data.inLru then s.lruTracker.erase (toLex (n.data.lruAccessTime, a))
        else s.lruTracker).insert (toLex (now, a)) () }

def splitDomainLabel (domain : Bytes) : List Bytes :=
  if isNumericHost domain then [domain]
  else (domain.splitOn period).filter fun l => !l.isEmpty

/-- The node at the end of the labels, with the nodes that are missing on the way. -/
def findOrAdd (malloc : Malloc DomainNode) :
    List Bytes → CookieStorage → Nat → Except Fault (CookieStorage × Nat)
  | [], s, a => .ok (s, a)
  | l :: ls, s, a =>
    match s.deref a with
    | .error e => .error e
    | .ok node =>
      match node.find l with
      | some c => findOrAdd malloc ls s c
      | none =>
        let c := malloc.alloc s.heap
        findOrAdd malloc ls { s with heap := LabelTree.addChild s.heap a node l c {} } c

def DOMAIN_EVICTION_TRIGGER : Nat := 2000

/-- A `double`. -/
def DOMAIN_EVICTION_RATE : ℚ := Binary64.round (1 / 10)

def store (cookie : Cookie) (now : Int) (malloc : Malloc DomainNode) :
    Except Fault (Bool × CookieStorage) :=
  let size := s.lruTracker.entries.length
  let delnum := (Binary64.trunc (Binary64.round (size * DOMAIN_EVICTION_RATE))).toNat
  match if DOMAIN_EVICTION_TRIGGER ≤ size then s.evictNode delnum else .ok s with
  | .error e => .error e
  | .ok s =>
    let labels := splitDomainLabel isNumericHost cookie.domain
    match s.findOrAdd malloc labels.reverse s.rootNode with
    | .error e => .error e
    | .ok (s, a) =>
      match s.deref a with
      | .error e => .error e
      | .ok node =>
        let (ok, cookies) := addCookie node.data.cookies cookie now
        let node := { node with data := { node.data with lastAccessTime := now, cookies } }
        let s := s.setData a node node.data
        .ok (ok, if ok then s.updateLru a node now else s)

/-- `pathDepth_` of a `CookiePathDivider`. -/
def pathDepth (path : Bytes) : Nat :=
  ((path.zip path.tail).countP fun (c, d) => d = slash && c ≠ slash) +
    if path ≠ [] ∧ path.getLast? ≠ some slash then 1 else 0

/-- `OrderByPathDepthDesc`. -/
def precedes (lhs rhs : Cookie) : Bool :=
  pathDepth rhs.path < pathDepth lhs.path ||
    (!(pathDepth lhs.path < pathDepth rhs.path) && lhs.creationTime < rhs.creationTime)

/-- `setLastAccessTime`, and `updateLru` where the node is tracked. -/
def access (c : Nat) (nextNode : DomainNode) (now : Int) : CookieStorage :=
  let data := { nextNode.data with lastAccessTime := now }
  let nextNode := { nextNode with data }
  let s := s.setData c nextNode data
  if data.inLru then s.updateLru c nextNode now else s

/-- The loop of `criteriaFind` down the labels from the node in the cell `a`. -/
def findDownwards (requestHost requestPath : Bytes) (now : Int) (secure : Bool) :
    List Bytes → CookieStorage → Nat → List Cookie → Except Fault (List Cookie × CookieStorage)
  | [], s, _, res => .ok (res, s)
  | l :: ls, s, a, res =>
    match s.deref a with
    | .error e => .error e
    | .ok node =>
      match node.find l with
      | none => .ok (res, s)
      | some c =>
        match s.deref c with
        | .error e => .error e
        | .ok nextNode =>
          let s := s.access c nextNode now
          match s.deref c with
          | .error e => .error e
          | .ok nextNode =>
            match nextNode.data.cookies with
            | none => findDownwards requestHost requestPath now secure ls s c res
            | some cookies =>
              let (out, cookies) :=
                findCookie isNumericHost cookies requestHost requestPath now secure
              findDownwards requestHost requestPath now secure ls
                (s.setData c nextNode { nextNode.data with cookies := some cookies }) c (res ++ out)

/-- Cookies that neither precedes the other come in some order; here it is the order found. -/
def criteriaFind (requestHost requestPath : Bytes) (now : Int) (secure : Bool) :
    Except Fault (List Cookie × CookieStorage) :=
  if requestPath = [] then .ok ([], s)
  else
    match s.findDownwards isNumericHost requestHost requestPath now secure
      (splitDomainLabel isNumericHost requestHost).reverse s.rootNode [] with
    | .error e => .error e
    | .ok (res, s) => .ok (res.mergeSort fun a b => !precedes b a, s)

/-- The cells that are tracked, the least recent first. -/
def tracked : List Nat := s.lruTracker.entries.map fun e => (ofLex e.1).2

def cookiesAt (a : Nat) : List Cookie := ((s.heap.cell a).bind fun n => n.data.cookies).getD []

def size : Nat := (s.tracked.map fun a => (s.cookiesAt a).length).sum

/-- What `saveNsFormat` writes. -/
def saveNsFormat : Bytes :=
  s.tracked.flatMap fun a => (s.cookiesAt a).flatMap fun c => c.toNsCookieFormat ++ [0x0a]

end CookieStorage

/-! ## Runs -/

inductive Event where
  | store (cookie : Cookie) (now : Int) (malloc : Malloc DomainNode)
  | criteriaFind (requestHost requestPath : Bytes) (now : Int) (secure : Bool)

/-- A fault is the end. -/
def step (isNumericHost : Bytes → Bool) : Except Fault CookieStorage → Event →
    Except Fault CookieStorage
  | .error f, _ => .error f
  | .ok s, .store cookie now malloc => (s.store isNumericHost cookie now malloc).map Prod.snd
  | .ok s, .criteriaFind requestHost requestPath now secure =>
    (s.criteriaFind isNumericHost requestHost requestPath now secure).map Prod.snd

end FluxCore.Cookies
