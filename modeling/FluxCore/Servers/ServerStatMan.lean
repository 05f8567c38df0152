import FluxCore.Util.ParamedString
import FluxCore.Bencode.Value
import Mathlib.Data.List.Basic

/-!
# Server statistics

`ServerStatMan` keeps what was learned about the servers. `save` writes a line for each of them to a
temporary file, and the file gets its name when all is written; `load` reads the lines again.
-/

namespace FluxCore.Servers

open Utp (Bytes)
open Bencode (name)
open Uri (cstr decimalBytes)
open ParamedString (stripIter parseUIntNoThrow until_ behind)
open Util (parseIntNoThrow)

/-! ## Statistics -/

inductive Status where
  | ok
  | error
  deriving DecidableEq, Repr

/-- The statistics of a server, with the time in seconds since the epoch. -/
structure ServerStat where
  hostname : Bytes
  protocol : Bytes
  downloadSpeed : Int
  singleConnectionAvgSpeed : Int
  multiConnectionAvgSpeed : Int
  counter : Int
  lastUpdated : Int
  status : Status
  deriving DecidableEq, Repr

namespace ServerStat

variable {a b c : ServerStat}

/-- `operator<`. -/
def lt (a b : ServerStat) : Prop :=
  a.hostname < b.hostname ∨ (a.hostname = b.hostname ∧ a.protocol < b.protocol)

instance decidableLt (a b : ServerStat) : Decidable (lt a b) :=
  inferInstanceAs (Decidable (_ ∨ _))

/-- `operator==`. -/
def same (a b : ServerStat) : Prop := a.hostname = b.hostname ∧ a.protocol = b.protocol

instance decidableSame (a b : ServerStat) : Decidable (same a b) :=
  inferInstanceAs (Decidable (_ ∧ _))

theorem lt_trans (hab : lt a b) (hbc : lt b c) : lt a c := by
  rcases hab with h | ⟨h, h'⟩
  · rcases hbc with g | ⟨g, -⟩
    · exact .inl (List.lt_trans h g)
    · exact .inl (g ▸ h)
  · rcases hbc with g | ⟨g, g'⟩
    · exact .inl (h ▸ g)
    · exact .inr ⟨h.trans g, List.lt_trans h' g'⟩

/-- What the order does not tell apart has the same names. -/
theorem same_of_not_lt (hab : ¬lt a b) (hba : ¬lt b a) : same a b := by
  have hhost : a.hostname = b.hostname :=
    List.le_antisymm (fun h => hba (.inl h)) (fun h => hab (.inl h))
  exact ⟨hhost, List.le_antisymm (fun h => hba (.inr ⟨hhost.symm, h⟩))
    (fun h => hab (.inr ⟨hhost, h⟩))⟩

theorem not_lt_of_same (h : same a b) : ¬lt a b := by
  rintro (hlt | ⟨-, hlt⟩)
  · exact List.lt_irrefl _ (h.1 ▸ hlt)
  · exact List.lt_irrefl _ (h.2 ▸ hlt)

theorem same_symm (h : same a b) : same b a := ⟨h.1.symm, h.2.symm⟩

end ServerStat

/-! ## The set -/

/-- `add`: nothing is put in where the names are there already. -/
def insertStat (serverStat : ServerStat) : List ServerStat → List ServerStat
  | [] => [serverStat]
  | t :: ts =>
    if t.lt serverStat then t :: insertStat serverStat ts
    else if t.same serverStat then t :: ts
    else serverStat :: t :: ts

variable {s t : ServerStat} {ts : List ServerStat}

theorem mem_of_mem_insertStat (h : t ∈ insertStat s ts) : t = s ∨ t ∈ ts := by
  induction ts with
  | nil => exact .inl (List.mem_singleton.mp h)
  | cons u ts ih =>
    rw [insertStat] at h
    split at h
    · rcases List.mem_cons.mp h with rfl | h
      · exact .inr (List.mem_cons_self ..)
      · exact (ih h).imp_right (List.mem_cons_of_mem _)
    · split at h
      · exact .inr h
      · exact List.mem_cons.mp h

theorem mem_insertStat (hnew : ∀ u ∈ ts, ¬u.same s) : t ∈ insertStat s ts ↔ t = s ∨ t ∈ ts := by
  induction ts with
  | nil => exact List.mem_cons
  | cons u ts ih =>
    obtain ⟨hu, hts⟩ := List.forall_mem_cons.mp hnew
    rw [insertStat]
    split
    · rw [List.mem_cons, List.mem_cons, ih hts]
      exact or_left_comm
    · exact List.mem_cons

theorem length_insertStat_le (s : ServerStat) (ts : List ServerStat) :
    (insertStat s ts).length ≤ ts.length + 1 := by
  induction ts with
  | nil => exact Nat.le_refl 1
  | cons u ts ih =>
    rw [insertStat]
    split
    · exact Nat.succ_le_succ ih
    · split
      · exact Nat.le_succ _
      · exact Nat.le_refl _

theorem pairwise_insertStat (h : ts.Pairwise ServerStat.lt) :
    (insertStat s ts).Pairwise ServerStat.lt := by
  induction ts with
  | nil => exact List.pairwise_singleton _ _
  | cons u ts ih =>
    obtain ⟨hu, hts⟩ := List.pairwise_cons.mp h
    rw [insertStat]
    split
    next hlt =>
      refine List.pairwise_cons.mpr ⟨fun t ht => ?_, ih hts⟩
      rcases mem_of_mem_insertStat ht with rfl | ht
      · exact hlt
      · exact hu t ht
    next hlt =>
      split
      · exact h
      next hsame =>
        have hsu : s.lt u := by
          by_contra hsu
          exact hsame (ServerStat.same_of_not_lt hlt hsu)
        refine List.pairwise_cons.mpr ⟨fun t ht => ?_, h⟩
        rcases List.mem_cons.mp ht with rfl | ht
        · exact hsu
        · exact ServerStat.lt_trans hsu (hu t ht)

/-- `serverStats_`, a set that is ordered by the names. -/
structure ServerStatMan where
  serverStats : List ServerStat
  sorted : serverStats.Pairwise ServerStat.lt

namespace ServerStatMan

def empty : ServerStatMan := ⟨[], List.Pairwise.nil⟩

def add (man : ServerStatMan) (serverStat : ServerStat) : ServerStatMan :=
  ⟨insertStat serverStat man.serverStats, pairwise_insertStat man.sorted⟩

/-- The statistics that the order does not tell from those names. -/
def find (man : ServerStatMan) (hostname protocol : Bytes) : Option ServerStat :=
  let ss : ServerStat := ⟨hostname, protocol, 0, 0, 0, 0, 0, .ok⟩
  man.serverStats.find? fun t => ¬t.lt ss ∧ ¬ss.lt t

/-- The names of different statistics of a set are not the same. -/
theorem eq_of_same {man : ServerStatMan} (hs : s ∈ man.serverStats) (ht : t ∈ man.serverStats)
    (h : s.same t) : s = t := by
  have hforward : man.serverStats.Pairwise fun a b => a.same b → a = b :=
    man.sorted.imp fun hlt hsame => absurd hlt (ServerStat.not_lt_of_same hsame)
  have hbackward : man.serverStats.Pairwise (flip fun a b => a.same b → a = b) :=
    hforward.imp fun hab hba => (hab (ServerStat.same_symm hba)).symm
  exact List.Pairwise.forall_of_forall_of_flip (fun _ _ _ => rfl) hforward hbackward hs ht h

theorem find_eq_some {man : ServerStatMan} :
    man.find s.hostname s.protocol = some s ↔ s ∈ man.serverStats := by
  rw [find]
  constructor
  · exact List.mem_of_find?_eq_some
  · intro h
    let ss : ServerStat := ⟨s.hostname, s.protocol, 0, 0, 0, 0, 0, .ok⟩
    have hs : ∃ t ∈ man.serverStats, decide (¬t.lt ss ∧ ¬ss.lt t) = true :=
      ⟨s, h, decide_eq_true ⟨ServerStat.not_lt_of_same ⟨rfl, rfl⟩,
        ServerStat.not_lt_of_same ⟨rfl, rfl⟩⟩⟩
    obtain ⟨t, ht⟩ := Option.isSome_iff_exists.mp (List.find?_isSome.mpr hs)
    have hlt : ¬t.lt ss ∧ ¬ss.lt t := by simpa using List.find?_some ht
    have hsame : t.same ss := ServerStat.same_of_not_lt hlt.1 hlt.2
    rw [ht, eq_of_same (List.mem_of_find?_eq_some ht) h ⟨hsame.1, hsame.2⟩]

end ServerStatMan

/-! ## Writing -/

def STATUS_STRING : Status → Bytes
  | .ok => name "OK"
  | .error => name "ERROR"

/-- `%d` and `PRId64`. -/
def decimalInt (n : Int) : Bytes :=
  if n < 0 then 0x2d :: decimalBytes n.natAbs else decimalBytes n.natAbs

/-- The buffer of `fmt` takes 2047 bytes. -/
def ServerStat.toString (s : ServerStat) : Bytes :=
  (name "host=" ++ cstr s.hostname ++ name ", protocol=" ++ cstr s.protocol ++
    name ", dl_speed=" ++ decimalInt s.downloadSpeed ++
    name ", sc_avg_speed=" ++ decimalInt s.singleConnectionAvgSpeed ++
    name ", mc_avg_speed=" ++ decimalInt s.multiConnectionAvgSpeed ++
    name ", last_updated=" ++ decimalInt s.lastUpdated ++
    name ", counter=" ++ decimalInt s.counter ++
    name ", status=" ++ STATUS_STRING s.status).take 2047

/-- What the file system does: whether the temporary file is opened, closed and renamed, and how
many bytes of what is written for some statistics get into it. -/
structure FileSystem where
  opens : Bool
  accepts : ServerStat → Nat
  closes : Bool
  renames : Bool

def ServerStat.line (e : ServerStat) : Bytes := e.toString ++ [0x0a]

/-- The temporary file. A write that fails is logged. -/
def writeLines (fs : FileSystem) : List ServerStat → Bytes
  | [] => []
  | e :: es => e.line.take (fs.accepts e) ++ writeLines fs es

/-- The result, and the file of the name behind it. -/
def ServerStatMan.save (man : ServerStatMan) (fs : FileSystem) (file : Bytes) : Bool × Bytes :=
  if !fs.opens then (false, file)
  else
    let tempfile := writeLines fs man.serverStats
    if !fs.closes then (false, file)
    else if fs.renames then (true, tempfile)
    else (false, file)

/-! ## Reading -/

inductive Field where
  | counter
  | dlSpeed
  | host
  | lastUpdated
  | mcAvgSpeed
  | protocol
  | scAvgSpeed
  | status
  deriving DecidableEq, Repr

def Field.name : Field → Bytes
  | .counter => Bencode.name "counter"
  | .dlSpeed => Bencode.name "dl_speed"
  | .host => Bencode.name "host"
  | .lastUpdated => Bencode.name "last_updated"
  | .mcAvgSpeed => Bencode.name "mc_avg_speed"
  | .protocol => Bencode.name "protocol"
  | .scAvgSpeed => Bencode.name "sc_avg_speed"
  | .status => Bencode.name "status"

def FIELDS : List Field :=
  [.counter, .dlSpeed, .host, .lastUpdated, .mcAvgSpeed, .protocol, .scAvgSpeed, .status]

/-- It is `none` for `MAX_FIELD`. -/
def idField (s : Bytes) : Option Field := FIELDS.find? fun f => s = f.name

/-- The parts between delimiters that are not empty. -/
def splitIter (s : Bytes) (delim : UInt8) : List Bytes := (s.splitOn delim).filter (· ≠ [])

def divide (s : Bytes) (delim : UInt8) : Bytes × Bytes :=
  (stripIter (until_ (· = delim) s), stripIter (behind (· = delim) s))

/-- The value of the field is replaced. -/
def assign (m : Field → Bytes) (item : Bytes) : Field → Bytes :=
  let p := divide item 0x3d
  match idField p.1 with
  | some id => fun f => if f = id then p.2 else m f
  | none => m

/-- A field that old files do not contain. -/
def laterField (value : Bytes) : Option Nat :=
  if value = [] then some 0 else parseUIntNoThrow value

def setStatus (status : Bytes) : Status :=
  if cstr status = STATUS_STRING .ok then .ok
  else if cstr status = STATUS_STRING .error then .error
  else .ok

/-- The statistics of the fields of a line. A line is skipped where it is `none`. -/
def statOf (m : Field → Bytes) : Option ServerStat :=
  if m .host = [] ∨ m .protocol = [] then none
  else
    (parseUIntNoThrow (m .dlSpeed)).bind fun dlSpeed =>
    (laterField (m .scAvgSpeed)).bind fun scAvgSpeed =>
    (laterField (m .mcAvgSpeed)).bind fun mcAvgSpeed =>
    (laterField (m .counter)).bind fun counter =>
    (parseIntNoThrow (m .lastUpdated)).bind fun lastUpdated =>
    some ⟨m .host, m .protocol, dlSpeed, scAvgSpeed, mcAvgSpeed, counter, lastUpdated,
      setStatus (m .status)⟩

/-- One pass of the loop. -/
def loadLine (man : ServerStatMan) (line : Bytes) : ServerStatMan :=
  let p := stripIter line
  if p = [] then man
  else
    let items := splitIter p 0x2c
    match statOf (items.foldl assign fun _ => []) with
    | some sstat => man.add sstat
    | none => man

/-- What is read, up to a line end, and what is behind it. The file has no NUL bytes, at which the
line would be cut off: what `save` writes are C strings. -/
def getLine (file : Bytes) : Bytes × Bytes :=
  (file.takeWhile (· ≠ 0x0a), (file.dropWhile (· ≠ 0x0a)).tail)

def loadLoop : Nat → Bytes → ServerStatMan → ServerStatMan
  | 0, _, man => man
  | fuel + 1, file, man =>
    if file = [] then man
    else
      let p := getLine file
      loadLoop fuel p.2 (loadLine man p.1)

/-- Each pass reads a byte, so there is no other pass behind as many as there are bytes. -/
def ServerStatMan.load (man : ServerStatMan) (file : Bytes) : ServerStatMan :=
  loadLoop file.length file man

end FluxCore.Servers
